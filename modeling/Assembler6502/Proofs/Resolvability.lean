import Assembler6502.Proofs.Hygiene
import Assembler6502.Proofs.Ratchet
import Mathlib.Data.List.Count
import Mathlib.Order.FixedPoints

/-!
# Which labels can be found

The discovery of labels goes over the program until a round finds nothing. Which labels are bound on
the way depends on the order of the statements: a label is bound while a round goes on, and a local
one only if none of its name is seen from further out. What is seen in the end does not depend on
it. Take the least set of definitions that contains every label whose expression is valid if the
labels of the set are seen, where the program counter is known as a walk under that set has it; then
a label is seen at a statement in the end exactly if it is seen there among these definitions.

A round that finds something makes a label seen at its own definition that was not seen there, so
there are not more such rounds than definitions.

## Main definitions

* `Definitions`: sets of definitions, by scope and name, and what open scopes see of them
* `Definitions.walk`: a walk over a program that sees a set of definitions
* `Definitions.resolvable`: the least set that contains what it makes valid
* `Definitions.Exhausted`: what a set makes valid is seen already
* `Workspace.unseen`: how many labels are not seen where they are defined

## Main results

* `Definitions.sees_of_resolvable`: an exhausted set sees all that is resolvable
* `Workspace.definitions_sweep`: a round stays within every set that contains what it makes valid
* `Workspace.unseen_lt`: a round that finds something makes a label seen
* `Assembly.discovery_finds_resolvable`: what the discovery finds, and in how many rounds
-/

namespace Assembler6502

/-! ## Sets of definitions -/

/-- A set of definitions, known by scope and name, where global labels have no scope. -/
abbrev Definitions := Set (Option Nat × String)

/-- What a label is known by that is defined in open scopes. -/
def Symbol.keyIn (symbol : Symbol) (stack : List Nat) : Option Nat × String :=
  Discovery.key { inner := stack } symbol

namespace Definitions

variable {D E : Definitions} {stack : List Nat} {symbol : Symbol}
  {leaves : List (Nat × Statement)}

/-- Open scopes see a label among some definitions. -/
def Sees (D : Definitions) (stack : List Nat) : Symbol → Prop
  | .global name => (none, name) ∈ D
  | .inScope name => ∃ scope ∈ stack ++ [0], (some scope, name) ∈ D

theorem Sees.mono (h : D ⊆ E) (hs : D.Sees stack symbol) : E.Sees stack symbol := by
  cases symbol with
  | global name => exact h hs
  | inScope name =>
    obtain ⟨scope, hscope, hmem⟩ := hs
    exact ⟨scope, hscope, h hmem⟩

open Classical in
/-- What expressions see of some definitions in given open scopes. -/
noncomputable def valuation (D : Definitions) (stack : List Nat) : Valuation :=
  ⟨fun symbol => if D.Sees stack symbol then some 0 else none, 0⟩

theorem isSome_valuation :
    ((D.valuation stack).lookup symbol).isSome = true ↔ D.Sees stack symbol := by
  simp only [valuation]
  split <;> simp [*]

/-- What a statement does to the open scopes and to whether the program counter is known. -/
noncomputable def track (D : Definitions) (x : ScopeState × Bool) (l : Nat × Statement) :
    ScopeState × Bool :=
  (x.1.follow l.2.item, l.2.item.knownBehind (D.valuation x.1.inner) x.2)

/-- The open scopes in which a walk comes to the statements of a program, and whether the program
counter is known there, if some definitions are seen. -/
noncomputable def walk (D : Definitions) (leaves : List (Nat × Statement)) :
    List ((ScopeState × Bool) × Nat × Statement) :=
  reached D.track ({}, true) leaves

/-- A walk is in the scopes of the program. -/
theorem along_of_walk {x : (ScopeState × Bool) × Nat × Statement} (hx : x ∈ D.walk leaves) :
    (x.1.1, x.2) ∈ ScopeState.along leaves := by
  obtain ⟨-, hthere, -⟩ := lockstep (f := D.track) (s := (({}, true) : ScopeState × Bool))
    (g := fun (σ : ScopeState) (l : Nat × Statement) => σ.follow l.2.item) (t := {}) (l := leaves)
    (R := fun x σ => x.1 = σ) rfl (by
      rintro x - y - - hxy
      rw [← hxy]
      rfl)
  obtain ⟨y, hy, hstate, hstatement⟩ := hthere x hx
  rw [hstate, ← hstatement]
  exact hy

/-- Where more is defined, more is known. -/
theorem walk_mono (h : D ⊆ E) {x : (ScopeState × Bool) × Nat × Statement} (hx : x ∈ D.walk leaves) :
    ∃ y ∈ E.walk leaves, y.2 = x.2 ∧ y.1.1 = x.1.1 ∧ (x.1.2 = true → y.1.2 = true) := by
  obtain ⟨-, hthere, -⟩ := lockstep (f := D.track) (g := E.track) (l := leaves)
    (s := (({}, true) : ScopeState × Bool)) (t := (({}, true) : ScopeState × Bool))
    (R := fun x y => y.1 = x.1 ∧ (x.2 = true → y.2 = true)) ⟨rfl, fun h => h⟩ (by
      rintro x - y - - ⟨hstate, hknown⟩
      refine ⟨by simp only [track, hstate], fun hbehind => ?_⟩
      refine Item.knownBehind_mono (fun symbol hs => ?_) hknown hbehind
      rw [hstate]
      exact isSome_valuation.mpr ((isSome_valuation.mp hs).mono h))
  obtain ⟨y, hy, ⟨hstate, hknown⟩, hstatement⟩ := hthere x hx
  exact ⟨y, hy, hstatement, hstate, hknown⟩

/-- The definitions that are valid if some are seen. -/
def defined (leaves : List (Nat × Statement)) (D : Definitions) : Definitions :=
  {key | ∃ x ∈ D.walk leaves, ∃ symbol value, x.2.2.item = .label symbol value ∧
    value.isValid (D.valuation x.1.1.inner) x.1.2 = true ∧ symbol.keyIn x.1.1.inner = key}

theorem defined_mono (h : D ⊆ E) : defined leaves D ⊆ defined leaves E := by
  rintro key ⟨x, hx, symbol, value, hitem, hvalid, rfl⟩
  obtain ⟨y, hy, hstatement, hstate, hknown⟩ := walk_mono h hx
  refine ⟨y, hy, symbol, value, by rw [hstatement, hitem], ?_, by rw [hstate]⟩
  rw [hstate]
  refine Expr.isValid_mono (fun other hs => ?_) hknown value hvalid
  exact isSome_valuation.mpr ((isSome_valuation.mp hs).mono h)

/-- The least set of definitions that contains what is valid if its own are seen. -/
def resolvable (leaves : List (Nat × Statement)) : Definitions :=
  OrderHom.lfp ⟨defined leaves, fun _ _ h => defined_mono h⟩

theorem isLeast_resolvable (leaves : List (Nat × Statement)) :
    IsLeast {D | defined leaves D ⊆ D} (resolvable leaves) :=
  OrderHom.isLeast_lfp_le ⟨defined leaves, fun _ _ h => defined_mono h⟩

/-! ## Definitions that are exhausted -/

/-- A label that is valid if some definitions are seen is seen among them. It need not be one of
them: another one of its name may stand further out. -/
def Exhausted (D : Definitions) (leaves : List (Nat × Statement)) : Prop :=
  ∀ x ∈ D.walk leaves, ∀ symbol value, x.2.2.item = .label symbol value →
    value.isValid (D.valuation x.1.1.inner) x.1.2 = true → D.Sees x.1.1.inner symbol

/-- The open scopes whose innermost one is given. -/
def stackOf (ν : Nesting) (scope : Nat) : List Nat :=
  if scope = 0 then [] else scope :: ν scope

/-- What is seen from the scope of a definition, as a set of definitions. -/
def spread (D : Definitions) (ν : Nesting) : Definitions :=
  {key | match key with
    | (none, name) => D.Sees [] (.global name)
    | (some scope, name) => D.Sees (stackOf ν scope) (.inScope name)}

/-- The open scopes from one of them outwards. -/
theorem mem_of_mem_stackOf {ν : Nesting} (hν : ν.Admits stack) {scope other : Nat}
    (hscope : scope ∈ stack ++ [0]) (hother : other ∈ stackOf ν scope ++ [0]) :
    other ∈ stack ++ [0] := by
  induction stack with
  | nil =>
    obtain rfl : scope = 0 := by simpa using hscope
    exact hother
  | cons innermost rest ih =>
    obtain ⟨hpos, hin, hrest⟩ := hν
    rcases List.mem_cons.mp hscope with rfl | hscope
    · rwa [stackOf, if_neg (Nat.ne_of_gt hpos), hin] at hother
    · exact List.mem_cons_of_mem _ (ih hrest hscope)

/-- Spreading definitions changes nothing that open scopes can see. -/
theorem sees_spread {ν : Nesting} (hν : ν.Admits stack) :
    (D.spread ν).Sees stack symbol ↔ D.Sees stack symbol := by
  cases symbol with
  | global name => exact Iff.rfl
  | inScope name =>
    constructor
    · rintro ⟨scope, hscope, other, hother, hmem⟩
      exact ⟨other, mem_of_mem_stackOf hν hscope hother, hmem⟩
    · rintro ⟨scope, hscope, hmem⟩
      refine ⟨scope, hscope, scope, ?_, hmem⟩
      unfold stackOf
      split <;> simp [*]

/-- A definition is seen from its own scope exactly if it is among those that are spread. -/
theorem keyIn_mem_spread {ν : Nesting} (hν : ν.Admits stack) :
    symbol.keyIn stack ∈ D.spread ν ↔ D.Sees stack symbol := by
  cases symbol with
  | global name => exact Iff.rfl
  | inScope name =>
    have hstack : stackOf ν (stack.headD 0) = stack := by
      cases stack with
      | nil => rfl
      | cons scope rest =>
        obtain ⟨hpos, hin, -⟩ := hν
        rw [List.headD_cons, stackOf, if_neg (Nat.ne_of_gt hpos), hin]
    show D.Sees (stackOf ν (stack.headD 0)) (.inScope name) ↔ _
    rw [hstack]

/-- The scopes of a program are nested. -/
theorem exists_nesting_along (leaves : List (Nat × Statement)) :
    ∃ ν : Nesting, ∀ y ∈ ScopeState.along leaves, ν.Admits y.1.inner := by
  obtain ⟨ν, hν⟩ := Environment.exists_nesting {} leaves
  refine ⟨ν, fun y hy => ?_⟩
  obtain ⟨-, -, hback⟩ := lockstep (s := Environment.restart {}) (t := ({} : ScopeState))
    (f := fun env l => env.follow l.2.item) (g := fun σ l => σ.follow l.2.item) (l := leaves)
    (R := fun env σ => env.scopeState = σ) rfl (by
      rintro x - y - - hxy
      rw [Environment.scopeState_follow, hxy])
  obtain ⟨x, hx, hstate, -⟩ := hback y hy
  rw [← hstate]
  exact hν x hx

/-- **An exhausted set of definitions sees all that is resolvable**, wherever the scopes of the
program are open. -/
theorem sees_of_resolvable (h : D.Exhausted leaves) {y : ScopeState × Nat × Statement}
    (hy : y ∈ ScopeState.along leaves) (hs : (resolvable leaves).Sees y.1.inner symbol) :
    D.Sees y.1.inner symbol := by
  obtain ⟨ν, hν⟩ := exists_nesting_along leaves
  have hvaluation {stack : List Nat} (hstack : ν.Admits stack) (other : Symbol) :
      (((D.spread ν).valuation stack).lookup other).isSome =
        ((D.valuation stack).lookup other).isSome := by
    rw [Bool.eq_iff_iff, isSome_valuation, isSome_valuation, sees_spread hstack]
  -- A walk that sees what is spread is a walk that sees the definitions themselves.
  obtain ⟨-, hthere, -⟩ := lockstep (f := (D.spread ν).track) (g := D.track) (l := leaves)
    (s := (({}, true) : ScopeState × Bool)) (t := (({}, true) : ScopeState × Bool))
    (R := fun x z => z = x) rfl (by
      rintro x hx z - - hzx
      rw [hzx]
      simp only [track, Prod.mk.injEq, true_and]
      exact (Item.knownBehind_congr (hvaluation (hν _ (along_of_walk hx))) _ _).symm)
  have hclosed : defined leaves (D.spread ν) ⊆ D.spread ν := by
    rintro key ⟨x, hx, other, value, hitem, hvalid, rfl⟩
    obtain ⟨z, hz, hstate, hstatement⟩ := hthere x hx
    obtain rfl : z = x := Prod.ext hstate hstatement
    have hadmits := hν _ (along_of_walk hx)
    rw [Expr.isValid_congr (hvaluation hadmits)] at hvalid
    exact (keyIn_mem_spread hadmits).mpr (h z hz other value hitem hvalid)
  exact (sees_spread (hν y hy)).mp (hs.mono ((isLeast_resolvable leaves).2 hclosed))

end Definitions

/-! ## The definitions of an environment -/

namespace Environment

variable {env e f : Environment} {stack : List Nat} {symbol : Symbol}

/-- The labels that are bound. -/
def definitions (env : Environment) : Definitions :=
  {key | match key with
    | (none, name) => (env.globals.get? name).isSome = true
    | (some scope, name) => ((env.localsOf scope).get? name).isSome = true}

theorem sees_definitions :
    env.definitions.Sees stack symbol ↔ (env.lookupIn stack symbol).isSome = true := by
  cases symbol with
  | global name => exact Iff.rfl
  | inScope name =>
    induction stack with
    | nil =>
      -- Behind all open scopes is the one with number zero.
      rw [lookupIn_nil]
      constructor
      · rintro ⟨scope, hscope, hbound⟩
        obtain rfl : scope = 0 := by simpa using hscope
        exact hbound
      · exact fun hbound => ⟨0, by simp, hbound⟩
    | cons scope rest ih =>
      rw [lookupIn_cons, Option.isSome_or, Bool.or_eq_true, ← ih]
      constructor
      · rintro ⟨other, hother, hbound⟩
        rcases List.mem_cons.mp hother with rfl | hother
        · exact .inl hbound
        · exact .inr ⟨other, hother, hbound⟩
      · rintro (hbound | ⟨other, hother, hbound⟩)
        · exact ⟨scope, List.mem_cons_self, hbound⟩
        · exact ⟨other, List.mem_cons_of_mem _ hother, hbound⟩

theorem isSome_valuation_definitions :
    ((env.definitions.valuation stack).lookup symbol).isSome =
      (env.lookupIn stack symbol).isSome := by
  rw [Bool.eq_iff_iff, Definitions.isSome_valuation, sees_definitions]

theorem definitions_of_restart (h : f.restart = e.restart) : f.definitions = e.definitions := by
  simp only [restart, Environment.mk.injEq] at h
  obtain ⟨hg, hl, -⟩ := h
  simp only [definitions, localsOf, hg, hl]

@[simp] theorem definitions_restart : env.restart.definitions = env.definitions :=
  definitions_of_restart (restart_restart env)

/-- A binding adds one definition. -/
theorem definitions_bind {D : Definitions} (h : env.definitions ⊆ D)
    (hkey : symbol.keyIn env.inner ∈ D) (v : Value) : (env.bind symbol v).definitions ⊆ D := by
  rintro ⟨scope?, name⟩ hbound
  cases scope? with
  | some scope =>
    rcases localsOf_bind_cases env symbol v scope name hbound with hbefore | ⟨hscope, rfl⟩
    · exact h hbefore
    · rw [← hscope]
      exact hkey
  | none =>
    cases symbol with
    | inScope other => exact h hbound
    | global other =>
      have hget : (if other = name then some v else env.globals.get? name).isSome = true := by
        rw [← Table.get?_insert]
        exact hbound
      split at hget
      · rename_i heq
        rw [← heq]
        exact hkey
      · exact h hget

end Environment

/-! ## Rounds -/

namespace Workspace

variable {w : Workspace} {d : Discovery} {symbol : Symbol} {value : Expr}

/-- A round comes to the statements in the order and in the scopes of a walk that sees the labels
from before the round. It sees more, and knows the program counter where the walk does. -/
theorem visit_of_walk (hd : d.pcKnown = true) {x : (ScopeState × Bool) × Nat × Statement}
    (hx : x ∈ w.context.env.definitions.walk w.program.leaves) :
    ∃ y ∈ w.visits d Pass.initLabels, x.2 = y.2 ∧ y.1.context.env.scopeState = x.1.1 ∧
      w.context.env.Grows y.1.context.env ∧ (x.1.2 = true → y.1.memory.pcKnown = true) := by
  -- The round and the walk go in lockstep: same scopes, and the round sees at least as much.
  obtain ⟨-, -, hback⟩ := lockstep (s := w.opening d) (t := (({}, true) : ScopeState × Bool))
    (f := Visit.step Pass.initLabels) (g := w.context.env.definitions.track)
    (l := w.program.leaves)
    (R := fun (s : Sweep Discovery) (x : ScopeState × Bool) =>
      s.context.env.scopeState = x.1 ∧ w.context.env.Grows s.context.env ∧
        (x.2 = true → s.memory.pcKnown = true))
    ⟨by rw [env_opening]; rfl, .of_restart (by rw [env_opening]; rfl), fun _ => hd⟩
    (by
      rintro x - y - - ⟨hstate, hgrows, hknown⟩
      refine ⟨?_, hgrows.trans (Pass.inPlace_initLabels.faithful.grows x.1 x.2), fun hbehind => ?_⟩
      · rw [Pass.inPlace_initLabels.faithful.scopes, hstate]
        rfl
      · rw [Pass.pcKnown_initLabels]
        refine Item.knownBehind_mono (fun symbol hs => ?_) hknown hbehind
        rw [Environment.isSome_valuation_definitions, ← hstate] at hs
        exact hgrows _ symbol hs)
  obtain ⟨y, hy, ⟨hstate, hgrows, hknown⟩, hstatement⟩ := hback x hx
  exact ⟨y, hy, hstatement, hstate, hgrows, hknown⟩

/-- A label that is valid if the labels from before a round are seen is seen behind the round. -/
theorem seen_of_valid (hd : d.pcKnown = true) {x : (ScopeState × Bool) × Nat × Statement}
    (hx : x ∈ w.context.env.definitions.walk w.program.leaves)
    (hitem : x.2.2.item = .label symbol value)
    (hvalid : value.isValid (w.context.env.definitions.valuation x.1.1.inner) x.1.2 = true) :
    ((w.sweep d Pass.initLabels id).1.context.env.lookupIn x.1.1.inner symbol).isSome = true := by
  obtain ⟨y, hy, hstatement, hstate, hgrows, hknown⟩ := visit_of_walk hd hx
  rw [← hstate]
  refine bound_of_visit hy (hstatement ▸ hitem) ?_
  refine Expr.isValid_mono (fun other hs => ?_) hknown value hvalid
  rw [Environment.isSome_valuation_definitions, ← hstate] at hs
  exact hgrows _ other hs

/-- A round that finds nothing has found all that its labels make valid. -/
theorem exhausted_of_quiet (hd : d.pcKnown = true)
    (hquiet : (w.sweep d Pass.initLabels id).2.1 = false) :
    w.context.env.definitions.Exhausted w.program.leaves := by
  intro x hx symbol value hitem hvalid
  have hseen := seen_of_valid hd hx hitem hvalid
  rw [Environment.lookupIn_of_restart (labels_of_quiet hquiet).1] at hseen
  exact Environment.sees_definitions.mpr hseen

/-- Nothing is found where all is found that the labels make valid. -/
theorem quiet_of_exhausted (hd : d.pcKnown = true)
    (h : w.context.env.definitions.Exhausted w.program.leaves) :
    (w.sweep d Pass.initLabels id).2.1 = false := by
  obtain ⟨⟨-, -, -, hend⟩, -, -⟩ := lockstep (s := w.opening d)
    (t := (({}, true) : ScopeState × Bool)) (f := Visit.step Pass.initLabels)
    (g := w.context.env.definitions.track) (l := w.program.leaves)
    (R := fun (s : Sweep Discovery) (x : ScopeState × Bool) =>
      s.context.env.scopeState = x.1 ∧ s.context.env.restart = w.context.env.restart ∧
        s.memory.pcKnown = x.2 ∧ s.changed = false)
    ⟨by rw [env_opening]; rfl, by rw [env_opening]; rfl, hd, rfl⟩
    (by
      rintro x - y hy hstatement ⟨hstate, hrestart, hknown, hchanged⟩
      have hseen (symbol : Symbol) : (x.1.context.env.lookup symbol).isSome =
          ((w.context.env.definitions.valuation y.1.1.inner).lookup symbol).isSome := by
        rw [Environment.isSome_valuation_definitions, ← Environment.lookupIn_of_restart hrestart,
          ← hstate]
        rfl
      have hstate' : (Visit.step Pass.initLabels x.1 x.2).context.env.scopeState =
          (w.context.env.definitions.track y.1 x.2).1 := by
        rw [Pass.inPlace_initLabels.faithful.scopes, hstate]
        rfl
      have hknown' : (Visit.step Pass.initLabels x.1 x.2).memory.pcKnown =
          (w.context.env.definitions.track y.1 x.2).2 := by
        rw [Pass.pcKnown_initLabels, hknown]
        exact Item.knownBehind_congr hseen _ _
      by_cases hlabel : ∃ symbol value, x.2.2.item = .label symbol value
      · obtain ⟨symbol, value, hitem⟩ := hlabel
        -- A label that is valid is seen already, so it is not bound.
        have hnot : (value.isValid x.1.context.env.valuation x.1.memory.pcKnown &&
            !x.1.context.env.contains symbol) = false := by
          cases hvalid : value.isValid x.1.context.env.valuation x.1.memory.pcKnown with
          | false => rfl
          | true =>
            rw [hknown, Expr.isValid_congr hseen] at hvalid
            have hsees := h y hy symbol value (by rw [hstatement, hitem]) hvalid
            rw [Environment.contains, hseen, Definitions.isSome_valuation.mpr hsees]
            rfl
        have hcases := (Pass.initLabels_label (s := x.1) hitem).2
        rw [hnot, if_neg (by decide)] at hcases
        exact ⟨hstate', by rw [hcases.2, hrestart], hknown', hcases.1.trans hchanged⟩
      · obtain ⟨hchanged', hrestart'⟩ := Pass.initLabels_other hlabel
        exact ⟨hstate', hrestart'.trans hrestart, hknown', hchanged'.trans hchanged⟩)
  rw [Workspace.sweep_eq]
  exact hend

/-- **A round finds nothing** exactly if the labels are exhausted, whatever it keeps in mind. -/
theorem exhausted_iff (hd : d.pcKnown = true) :
    (w.sweep d Pass.initLabels id).2.1 = false ↔
      w.context.env.definitions.Exhausted w.program.leaves :=
  ⟨exhausted_of_quiet hd, quiet_of_exhausted hd⟩

/-- **A round stays within definitions** that contain what they make valid. -/
theorem definitions_sweep {D : Definitions} (hD : Definitions.defined w.program.leaves D ⊆ D)
    (hw : w.context.env.definitions ⊆ D) :
    (w.sweep d Pass.initLabels id).1.context.env.definitions ⊆ D := by
  obtain ⟨⟨-, hend, -⟩, -, -⟩ := lockstep (s := w.opening d)
    (t := (({}, true) : ScopeState × Bool)) (f := Visit.step Pass.initLabels) (g := D.track)
    (l := w.program.leaves)
    (R := fun (s : Sweep Discovery) (x : ScopeState × Bool) =>
      s.context.env.scopeState = x.1 ∧ s.context.env.definitions ⊆ D ∧
        (s.memory.pcKnown = true → x.2 = true))
    ⟨by rw [env_opening]; rfl,
      by rw [env_opening, Environment.definitions_restart]; exact hw, fun _ => rfl⟩
    (by
      rintro x - y hy hstatement ⟨hstate, hwithin, hknown⟩
      -- What is seen in the middle of the round is seen among the definitions.
      have hseen (symbol : Symbol) (hs : (x.1.context.env.lookup symbol).isSome = true) :
          ((D.valuation y.1.1.inner).lookup symbol).isSome = true := by
        rw [← Environment.lookupIn_inner, ← Environment.sees_definitions] at hs
        rw [← hstate]
        exact Definitions.isSome_valuation.mpr (hs.mono hwithin)
      refine ⟨?_, ?_, fun hbehind => ?_⟩
      · rw [Pass.inPlace_initLabels.faithful.scopes, hstate]
        rfl
      · by_cases hlabel : ∃ symbol value, x.2.2.item = .label symbol value
        · obtain ⟨symbol, value, hitem⟩ := hlabel
          have hcases := (Pass.initLabels_label (s := x.1) hitem).2
          split at hcases
          · rename_i hbinds
            obtain ⟨hvalid, -⟩ := Bool.and_eq_true_iff.mp hbinds
            rw [hcases.2]
            refine Environment.definitions_bind hwithin (hD ?_) 0
            refine ⟨y, hy, symbol, value, by rw [hstatement, hitem], ?_, by rw [← hstate]; rfl⟩
            exact Expr.isValid_mono hseen hknown value hvalid
          · rw [hcases.2]
            exact hwithin
        · rw [Environment.definitions_of_restart (Pass.initLabels_other hlabel).2]
          exact hwithin
      · rw [Pass.pcKnown_initLabels] at hbehind
        exact Item.knownBehind_mono hseen hknown hbehind)
  rw [Workspace.sweep_eq]
  simp only [id, Context.env_restart, Environment.definitions_restart]
  exact hend

end Workspace

/-! ## Labels that are not seen yet -/

namespace Environment

variable {e f : Environment} {y : ScopeState × Nat × Statement}

/-- A statement defines a label that is not seen where the statement stands. -/
def misses (env : Environment) (y : ScopeState × Nat × Statement) : Bool :=
  y.2.2.item.defined?.any fun symbol => (env.lookupIn y.1.inner symbol).isNone

theorem misses_iff : e.misses y = true ↔
    ∃ symbol value, y.2.2.item = .label symbol value ∧ e.lookupIn y.1.inner symbol = none := by
  simp only [misses, Option.any_eq_true, Item.defined?_eq_some, Option.isNone_iff_eq_none]
  constructor
  · rintro ⟨symbol, ⟨value, hitem⟩, hnone⟩
    exact ⟨symbol, value, hitem, hnone⟩
  · rintro ⟨symbol, value, hitem, hnone⟩
    exact ⟨symbol, ⟨value, hitem⟩, hnone⟩

theorem Grows.misses (h : e.Grows f) (hy : f.misses y = true) : e.misses y = true := by
  obtain ⟨symbol, value, hitem, hnone⟩ := misses_iff.mp hy
  refine misses_iff.mpr ⟨symbol, value, hitem, Option.not_isSome_iff_eq_none.mp fun hsome => ?_⟩
  have hseen := h _ symbol hsome
  rw [hnone] at hseen
  cases hseen

end Environment

namespace Workspace

variable {w : Workspace} {d : Discovery}

/-- The number of labels that are not seen where they are defined. -/
def unseen (w : Workspace) : Nat :=
  (ScopeState.along w.program.leaves).countP w.context.env.misses

/-- There are not more of them than labels. -/
theorem unseen_le (w : Workspace) :
    w.unseen ≤ w.program.leaves.countP fun l => l.2.item.defined?.isSome := by
  have hleaves : (ScopeState.along w.program.leaves).map Prod.snd = w.program.leaves := by
    have hall := flatMap_reached (f := fun (σ : ScopeState) (l : Nat × Statement) =>
      σ.follow l.2.item) (s := {}) (l := w.program.leaves) id
    rwa [List.map_id, ← List.map_eq_flatMap] at hall
  have hcount : (ScopeState.along w.program.leaves).countP
      (fun y => y.2.2.item.defined?.isSome) =
        w.program.leaves.countP fun l => l.2.item.defined?.isSome := by
    nth_rewrite 2 [← hleaves]
    rw [List.countP_map]
    rfl
  rw [← hcount]
  refine List.countP_mono_left fun y _ hy => ?_
  obtain ⟨symbol, value, hitem, -⟩ := Environment.misses_iff.mp hy
  rw [Item.defined?_eq_some.mpr ⟨value, hitem⟩]
  rfl

theorem unseen_sweep : (w.sweep d Pass.initLabels id).1.unseen =
    (ScopeState.along w.program.leaves).countP
      (w.sweep d Pass.initLabels id).1.context.env.misses := by
  have hleaves : (w.sweep d Pass.initLabels id).1.program.leaves = w.program.leaves :=
    leaves_observe
  rw [unseen, hleaves]

theorem unseen_runPass_le (w : Workspace) (d : Discovery) :
    (w.runPass .initLabels d).1.unseen ≤ w.unseen := by
  refine kept_runPass (I := fun v => v.unseen ≤ w.unseen) (fun hclean => ?_) (Nat.le_refl _)
  rw [runPass_initLabels hclean, unseen_sweep]
  exact List.countP_mono_left fun y _ hy => (grows_sweep Pass.inPlace_initLabels.faithful).misses hy

/-- **A round that finds something** makes a label seen where it is defined. -/
theorem unseen_lt (h : (w.runPass .initLabels d).2.1 = true) :
    (w.runPass .initLabels d).1.unseen < w.unseen := by
  by_cases hfailed : w.context.hasErrors = true
  · rw [runPass_of_fault hfailed] at h
    cases h
  have hclean : w.Clean := Bool.eq_false_iff.mpr hfailed
  rw [runPass_initLabels hclean] at h ⊢
  -- The labels from before the round make one valid that they do not see.
  have hleft : ¬ w.context.env.definitions.Exhausted w.program.leaves := by
    rw [← exhausted_iff (d := d.nextRound) rfl, h]
    decide
  simp only [Definitions.Exhausted, not_forall] at hleft
  obtain ⟨x, hx, symbol, value, hitem, hvalid, hnot⟩ := hleft
  have hbehind := seen_of_valid (d := d.nextRound) rfl hx hitem hvalid
  rw [Environment.sees_definitions, Option.not_isSome_iff_eq_none] at hnot
  have hbefore : w.context.env.misses (x.1.1, x.2) = true :=
    Environment.misses_iff.mpr ⟨symbol, value, hitem, hnot⟩
  have hafter : (w.sweep d.nextRound Pass.initLabels id).1.context.env.misses (x.1.1, x.2) =
      false := by
    rw [Bool.eq_false_iff]
    intro hmisses
    obtain ⟨other, value', hitem', hnone⟩ := Environment.misses_iff.mp hmisses
    obtain ⟨rfl, -⟩ := Item.label.inj (hitem.symm.trans hitem')
    rw [hnone] at hbehind
    cases hbehind
  have hsame : (ScopeState.along w.program.leaves).countP
      (w.sweep d.nextRound Pass.initLabels id).1.context.env.misses =
        ((ScopeState.along w.program.leaves).filter w.context.env.misses).countP
          (w.sweep d.nextRound Pass.initLabels id).1.context.env.misses := by
    rw [List.countP_filter]
    refine List.countP_congr fun y _ => ?_
    rw [Bool.and_eq_true_iff]
    exact ⟨fun hy => ⟨hy, (grows_sweep Pass.inPlace_initLabels.faithful).misses hy⟩, fun hy => hy.1⟩
  rw [unseen_sweep, hsame, unseen, List.countP_eq_length_filter (p := w.context.env.misses)]
  exact List.countP_lt_length_iff.mpr
    ⟨_, List.mem_filter.mpr ⟨Definitions.along_of_walk hx, hbefore⟩, hafter⟩

/-- A round reports the same whatever is in mind. -/
theorem changed_initLabels (w : Workspace) (d : Discovery) :
    (w.runPass .initLabels d).2.1 = (w.runPass .initLabels {}).2.1 := by
  by_cases hfailed : w.context.hasErrors = true
  · rw [runPass_of_fault hfailed, runPass_of_fault hfailed]
  · have hclean : w.Clean := Bool.eq_false_iff.mpr hfailed
    rw [runPass_initLabels hclean, runPass_initLabels hclean]
    by_cases hexhausted : w.context.env.definitions.Exhausted w.program.leaves
    · rw [quiet_of_exhausted rfl hexhausted, quiet_of_exhausted rfl hexhausted]
    · have hfinds (d : Discovery) (hd : d.pcKnown = true) :
          (w.sweep d Pass.initLabels id).2.1 = true :=
        Bool.eq_true_of_not_eq_false fun hquiet => hexhausted (exhausted_of_quiet hd hquiet)
      rw [hfinds d.nextRound rfl, hfinds (Discovery.nextRound {}) rfl]

end Workspace

/-! ## The discovery -/

namespace Stage

/-- The stage that finds labels. -/
def discovery : Stage :=
  fixpoint "label initialization" [pass .initLabels]

/-- The fault that the stage that finds labels ran out of rounds. -/
def unfound : Fault :=
  .pass (.noConvergence "label initialization")

/-- A run of the discovery that reports a change. What it has in mind does not matter
(`Workspace.changed_initLabels`). -/
def Entry.finds (entry : Entry) : Bool :=
  entry.kind = .initLabels && (entry.before.runPass .initLabels {}).2.1

/-- **Not more runs find something than labels are unseen** to begin with. -/
theorem Traced.finds_le {u w : Workspace} {entries : List Entry} (h : Traced u entries w)
    (hkinds : ∀ entry ∈ entries, entry.kind = .initLabels) :
    entries.countP (·.finds) + w.unseen ≤ u.unseen := by
  induction h with
  | nil => simp
  | @cons entry rest w d hafter _ ih =>
    obtain ⟨hfirst, hrest⟩ := List.forall_mem_cons.mp hkinds
    have hle := ih hrest
    rw [hafter, hfirst] at hle
    rw [List.countP_cons]
    -- A run that finds something leaves fewer labels unseen, and no run leaves more.
    split
    · rename_i hfinds
      obtain ⟨-, hchanged⟩ := Bool.and_eq_true_iff.mp hfinds
      rw [← Workspace.changed_initLabels _ d] at hchanged
      have hlt := Workspace.unseen_lt hchanged
      omega
    · have hle' := Workspace.unseen_runPass_le entry.before d
      omega
  | exhausted name _ ih => exact ih hkinds

end Stage

namespace Assembly

variable {options : Options} {program : Program} {diagnostics : Diagnostics}

/-- The rounds in which labels are found. -/
def discoveryRounds (options : Options) (program : Program) (diagnostics : Diagnostics) :
    List Stage.Entry :=
  Stage.discovery.history (expanded options program diagnostics) .fresh

theorem discovered_eq : discovered options program diagnostics =
    (Stage.discovery.run (expanded options program diagnostics) .fresh).1 := by
  have hstage : (Stage.pipeline options.branchExtend)[2]? = some Stage.discovery := rfl
  rw [discovered, behindStage_succ hstage, Stage.fst_go]

/-- **The discovery runs out of rounds** only if there are as many labels that are not seen. -/
theorem unseen_of_exhausted_rounds {fault : Located Fault}
    (hfault : fault ∈ (discovered options program diagnostics).context.diagnostics.errors)
    (hvalue : fault.value = Stage.unfound) :
    fault ∈ (expanded options program diagnostics).context.diagnostics.errors ∨
      Stage.maxRounds ≤ (expanded options program diagnostics).unseen := by
  by_cases hfailed : (expanded options program diagnostics).context.hasErrors = true
  · rw [discovered_eq, (Stage.run_of_fault rfl hfailed _).1] at hfault
    exact .inl hfault
  refine .inr (Nat.le_of_not_lt fun hfew => ?_)
  -- Nothing is reported so far, and a round that makes another one necessary makes a label seen.
  have hstart : (expanded options program diagnostics).context.Accounted
      (· ≠ Stage.unfound) := by
    intro other hother
    rw [Context.hasErrors_eq_false.mp (Bool.eq_false_iff.mpr hfailed)] at hother
    cases hother
  have hend : (discovered options program diagnostics).context.Accounted
      (· ≠ Stage.unfound) := by
    rw [discovered_eq, Stage.discovery, Stage.run_fixpoint]
    refine (Workspace.iterate_within (I := fun w => w.context.Accounted (· ≠ Stage.unfound))
      (φ := Workspace.unseen) (fun w ms hw => ?_) _ _ _ _ hstart hfew).1
    rw [Stage.runAll_single.1, Stage.runAll_single.2, Stage.run_pass, Stage.changed_run_pass]
    exact ⟨Workspace.accounted_runPass (by decide) _ hw, Workspace.unseen_runPass_le w _,
      Workspace.unseen_lt⟩
  rcases hend fault hfault with hother | hordinary
  · exact hother hvalue
  · rw [hvalue] at hordinary
    exact hordinary

/-- In the middle of the discovery: some statements, and labels within what is resolvable. -/
structure Discovering (leaves : List (Nat × Statement)) (w : Workspace) : Prop where
  statements : w.program.leaves = leaves
  definitions : w.context.env.definitions ⊆ Definitions.resolvable leaves

theorem Discovering.runPass {leaves : List (Nat × Statement)} {w : Workspace}
    (h : Discovering leaves w) (d : Discovery) :
    Discovering leaves (w.runPass .initLabels d).1 := by
  refine Workspace.kept_runPass (fun hclean => ?_) h
  rw [Workspace.runPass_initLabels hclean]
  refine ⟨Workspace.leaves_observe.trans h.statements,
    Workspace.definitions_sweep ?_ h.definitions⟩
  rw [h.statements]
  exact (Definitions.isLeast_resolvable leaves).1

/-- **The discovery stays within what is resolvable.** -/
theorem definitions_discovered : (discovered options program diagnostics).context.env.definitions ⊆
    Definitions.resolvable (expanded options program diagnostics).program.leaves := by
  have hstart : Discovering (expanded options program diagnostics).program.leaves
      (expanded options program diagnostics) := by
    refine ⟨rfl, ?_⟩
    -- Nothing is bound before labels are sought.
    rw [Environment.definitions_of_restart (e := {}) restart_expanded]
    rintro ⟨scope? | scope, name⟩ hbound <;> cases hbound
  rw [discovered_eq]
  refine (Stage.kept_run (fun _ _ h => ⟨h.statements, h.definitions⟩) Stage.discovery ?_ _ _
    hstart).1.definitions
  intro kind hkind w d hw
  obtain rfl : kind = .initLabels := by
    simpa [Stage.discovery, Stage.kinds, Stage.kindsAll] using hkind
  exact hw.runPass d

/-- **The discovery exhausts what is resolvable** if it ends without a fault. -/
theorem exhausted_discovered (h : (discovered options program diagnostics).Clean) :
    (discovered options program diagnostics).context.env.definitions.Exhausted
      (expanded options program diagnostics).program.leaves := by
  obtain ⟨w, d, hd, heq, hquiet⟩ := exists_last_round h
  have hleaves : w.program.leaves = (expanded options program diagnostics).program.leaves := by
    rw [← leaves_discovery, ← heq]
    exact Workspace.leaves_observe.symm
  have hexhausted := (Workspace.exhausted_iff hd).mp hquiet
  rw [← hleaves, ← heq, Environment.definitions_of_restart (Workspace.labels_of_quiet hquiet).1]
  exact hexhausted

/-- **The discovery finds what is resolvable.** Let macros be expanded. Not more rounds of the
discovery report a change than labels are defined, so that it runs out of rounds is reported only if
there are a hundred of them. If the discovery ends without a fault, then a label is seen at a
statement exactly if it is seen there among the least definitions that contain every label that they
make valid, where the program counter is known as a walk under them has it; and a round that starts
afresh binds nothing. -/
theorem discovery_finds_resolvable (options : Options) (program : Program)
    (diagnostics : Diagnostics) :
    let leaves := (expanded options program diagnostics).program.leaves
    let labels := leaves.countP fun l => l.2.item.defined?.isSome
    let found := discovered options program diagnostics
    (discoveryRounds options program diagnostics).countP (·.finds) ≤ labels ∧
      (∀ fault ∈ found.context.diagnostics.errors,
        fault.value = .pass (.noConvergence "label initialization") →
          fault ∈ (expanded options program diagnostics).context.diagnostics.errors ∨
            100 ≤ labels) ∧
      IsLeast {D | Definitions.defined leaves D ⊆ D} (Definitions.resolvable leaves) ∧
      (found.Clean →
        (∀ y ∈ ScopeState.along leaves, ∀ symbol,
          (found.context.env.lookupIn y.1.inner symbol).isSome = true ↔
            (Definitions.resolvable leaves).Sees y.1.inner symbol) ∧
        (found.runPass .initLabels {}).2.1 = false ∧
        (found.runPass .initLabels {}).1.context.env.restart = found.context.env.restart) := by
  intro leaves labels found
  have hlabels : (expanded options program diagnostics).unseen ≤ labels :=
    Workspace.unseen_le _
  refine ⟨?_, fun fault hfault hvalue => ?_, Definitions.isLeast_resolvable leaves,
    fun hclean => ⟨fun y hy symbol => ?_, ?_⟩⟩
  · have hfinds := (Stage.traced_history Stage.discovery
      (expanded options program diagnostics) .fresh).finds_le fun entry hentry => by
        simpa [Stage.discovery, Stage.kinds, Stage.kindsAll] using
          Stage.kind_mem_kinds Stage.discovery _ _ entry hentry
    exact Nat.le_trans (Nat.le_trans (Nat.le_add_right _ _) hfinds) hlabels
  · rcases unseen_of_exhausted_rounds hfault hvalue with hbefore | hmany
    · exact .inl hbefore
    · exact .inr (Nat.le_trans hmany hlabels)
  · rw [← Environment.sees_definitions]
    constructor
    · exact fun hseen => hseen.mono definitions_discovered
    · exact Definitions.sees_of_resolvable (exhausted_discovered hclean) hy
  · have hexhausted : found.context.env.definitions.Exhausted found.program.leaves := by
      rw [show found.program.leaves = leaves from leaves_discovery]
      exact exhausted_discovered hclean
    have hquiet : (found.sweep (Discovery.nextRound {}) Pass.initLabels id).2.1 = false :=
      (Workspace.exhausted_iff rfl).mpr hexhausted
    rw [Workspace.runPass_initLabels hclean]
    exact ⟨hquiet, (Workspace.labels_of_quiet hquiet).1⟩

/-- Aliases that refer forwards, an origin that is defined at the end, and a local label of one name
in three scopes. -/
def forwardAliases : Source.Input :=
  .text "forward" (" .org start\n.alias a b+1\n.alias b c+1\n.alias c 5\n .scope\n.alias _x a\n" ++
    " .scope\n_x: nop\n .scend\n .scend\n_x: nop\n.alias start 100\n").toList ""

/-- The label of the middle scope is valid last, and then it is seen from further out and not
bound. -/
theorem discovery_finds_forwardAliases :
    let read := Source.read .mos6502 .empty (.ok []) [forwardAliases]
    let leaves := (expanded {} read.program read.diagnostics).program.leaves
    let found := discovered {} read.program read.diagnostics
    found.Clean ∧ leaves.countP (fun l => l.2.item.defined?.isSome) = 7 ∧
      (discoveryRounds {} read.program read.diagnostics).map (·.finds) =
        [true, true, true, false] ∧
      (found.context.env.localsOf 1).get? "x" = none ∧
      ∀ y ∈ ScopeState.along leaves, ∀ symbol,
        (found.context.env.lookupIn y.1.inner symbol).isSome = true ↔
          (Definitions.resolvable leaves).Sees y.1.inner symbol := by
  generalize hread : Source.read .mos6502 .empty (.ok []) [forwardAliases] = read
  obtain ⟨hclean, hlabels, hrounds, hunbound⟩ :
      (discovered {} read.program read.diagnostics).context.hasErrors = false ∧
      ((expanded {} read.program read.diagnostics).program.leaves.countP
        fun l => l.2.item.defined?.isSome) = 7 ∧
      (discoveryRounds {} read.program read.diagnostics).map (·.finds) =
        [true, true, true, false] ∧
      ((discovered {} read.program read.diagnostics).context.env.localsOf 1).get? "x" = none := by
    subst hread
    decide +kernel
  obtain ⟨-, -, -, hfound⟩ := discovery_finds_resolvable {} read.program read.diagnostics
  exact ⟨hclean, hlabels, hrounds, hunbound, (hfound hclean).1⟩

end Assembly
end Assembler6502
