import Assembler6502.Proofs.Indifference
import Assembler6502.Proofs.Resolvability

/-!
# Labels that are defined twice

A label is global or belongs to the scope in which it is defined, and a scope is not the same scope
when it is opened again. The discovery of labels reports every definition of a label that is
defined before, where it stands, and reports it once. It goes over the program again and again, and
the numbers of scopes begin anew each time while it keeps in mind who has defined which label: that
is why a round has to find the definitions of the round before under the same keys. Only the first
round reports definitions, as a second one is run only if there was nothing to report.

## Main definitions

* `ScopeState.SameLabel`: two definitions are of the same label
* `redefinitions leaves`: the reports of the definitions that have another one of the same label
  before them
* `Context.duplicates`: the reports among the faults found so far

## Main results

* `Workspace.notes_runPass`: what a round notes is a matter of the statements and their scopes
* `Notes.complete_foldl`: the first round reports what is to be reported
* `Workspace.Settled.runPass`: another round reports nothing
* `Workspace.redefinitions_reported`: the discovery reports every such definition, and nothing else
-/

namespace Assembler6502

/-- The elements of a list, each with those before it. -/
def withBefore {α : Type} (l : List α) : List (List α × α) :=
  reached (fun before a => before ++ [a]) [] l

theorem withBefore_concat {α : Type} (l : List α) (a : α) :
    withBefore (l ++ [a]) = withBefore l ++ [(l, a)] := by
  have hbehind : l.foldl (fun before a => before ++ [a]) [] = l := by
    induction l using List.reverseRecOn with
    | nil => rfl
    | append_singleton l b ih => rw [List.foldl_append, ih, List.foldl_cons, List.foldl_nil]
  rw [withBefore, reached_append, hbehind]
  rfl

/-! ## Definitions of the same label -/

namespace ScopeState

/-- Two definitions are of the same label if they define the same global name, or the same local
name in the same scope. -/
inductive SameLabel (σ τ : ScopeState) : Symbol → Symbol → Prop
  | global (name : String) : SameLabel σ τ (.global name) (.global name)
  | inScope (name : String) (hscope : σ.innermost = τ.innermost) :
    SameLabel σ τ (.inScope name) (.inScope name)

/-- Definitions are of the same label exactly if they are known by the same key. -/
theorem sameLabel_iff {σ τ : ScopeState} {symbol other : Symbol} :
    SameLabel σ τ symbol other ↔ symbol.keyIn σ.inner = other.keyIn τ.inner := by
  constructor
  · intro h
    cases h with
    | global name => rfl
    | inScope name hscope => exact congrArg (fun scope => (some scope, name)) hscope
  · intro h
    cases symbol with
    | global name =>
      cases other with
      | global name' =>
        obtain rfl : name = name' := congrArg Prod.snd h
        exact .global name
      | inScope name' => exact absurd (congrArg Prod.fst h) nofun
    | inScope name =>
      cases other with
      | global name' => exact absurd (congrArg Prod.fst h) nofun
      | inScope name' =>
        obtain rfl : name = name' := congrArg Prod.snd h
        exact .inScope name (Option.some.inj (congrArg Prod.fst h))

theorem along_concat (before : List (Nat × Statement)) (l : Nat × Statement) :
    along (before ++ [l]) = along before ++ [(behind before, l)] := by
  rw [along, reached_append]
  rfl

theorem map_along (leaves : List (Nat × Statement)) : (along leaves).map (·.2) = leaves := by
  induction leaves using List.reverseRecOn with
  | nil => rfl
  | append_singleton before l ih => rw [along_concat, List.map_append, ih]; rfl

end ScopeState

open ScopeState (along behind SameLabel)

/-- A statement defines a label that is defined before, where `before` holds the statements before
it with their scopes. -/
def DefinedIn (before : List (ScopeState × Nat × Statement)) (σ : ScopeState) (symbol : Symbol) :
    Prop :=
  ∃ x ∈ before, ∃ other, x.2.2.item.defined? = some other ∧ SameLabel x.1 σ other symbol

/-- What the label is known by that a statement defines. -/
def definedAs? (y : ScopeState × Nat × Statement) : Option (Option Nat × String) :=
  y.2.2.item.defined?.map (·.keyIn y.1.inner)

theorem definedAs?_eq {y : ScopeState × Nat × Statement} {symbol : Symbol}
    (hitem : y.2.2.item.defined? = some symbol) :
    definedAs? y = some (symbol.keyIn y.1.inner) := by
  rw [definedAs?, hitem]
  rfl

theorem definedIn_iff {before : List (ScopeState × Nat × Statement)} {σ : ScopeState}
    {symbol : Symbol} :
    DefinedIn before σ symbol ↔ ∃ x ∈ before, definedAs? x = some (symbol.keyIn σ.inner) := by
  simp only [DefinedIn, definedAs?, Option.map_eq_some_iff, ScopeState.sameLabel_iff]

instance (before : List (ScopeState × Nat × Statement)) (σ : ScopeState) (symbol : Symbol) :
    Decidable (DefinedIn before σ symbol) :=
  decidable_of_iff _ definedIn_iff.symm

/-- The report of a statement that defines a label which is defined before. -/
def redefinition? (before : List (ScopeState × Nat × Statement))
    (y : ScopeState × Nat × Statement) : Option (Located Fault) :=
  match y.2.2.item.defined? with
  | some symbol =>
    if DefinedIn before y.1 symbol then
      some ⟨y.2.2.location, .symbol (.duplicateLabel symbol)⟩
    else none
  | none => none

/-- **The reports of all definitions that have another one of the same label before them**, in the
order of the statements. -/
def redefinitions (leaves : List (Nat × Statement)) : List (Located Fault) :=
  (withBefore (along leaves)).filterMap fun x => redefinition? x.1 x.2

theorem redefinitions_concat (before : List (Nat × Statement)) (l : Nat × Statement) :
    redefinitions (before ++ [l]) =
      redefinitions before ++ (redefinition? (along before) (behind before, l)).toList := by
  rw [redefinitions, ScopeState.along_concat, withBefore_concat, List.filterMap_append]
  cases hreport : redefinition? (along before) (behind before, l) <;> simp [hreport, redefinitions]

/-! ## Who has defined a label first -/

/-- The number of the statement that defines a label first. -/
def definer? (before : List (ScopeState × Nat × Statement)) (key : Option Nat × String) :
    Option Nat :=
  (before.find? fun y => definedAs? y = some key).map (·.2.1)

section Definer

variable {before : List (ScopeState × Nat × Statement)} {y : ScopeState × Nat × Statement}
  {key : Option Nat × String} {σ : ScopeState} {symbol : Symbol}

theorem definer?_append (after : List (ScopeState × Nat × Statement)) :
    definer? (before ++ after) key = (definer? before key).or (definer? after key) := by
  rw [definer?, List.find?_append]
  cases hfound : before.find? fun y => definedAs? y = some key <;> simp [definer?, hfound]

theorem definer?_cons (after : List (ScopeState × Nat × Statement)) :
    definer? (y :: after) key = if definedAs? y = some key then some y.2.1
      else definer? after key := by
  unfold definer?
  rw [List.find?_cons]
  split <;> simp_all

theorem definer?_eq_none : definer? before (symbol.keyIn σ.inner) = none ↔
    ¬ DefinedIn before σ symbol := by
  simp [definer?, definedIn_iff]

theorem number_of_definer? {number : Nat} (h : definer? before key = some number) :
    number ∈ before.map (·.2.1) := by
  obtain ⟨y, hfound, rfl⟩ := Option.map_eq_some_iff.mp h
  exact List.mem_map_of_mem (List.mem_of_find?_eq_some hfound)

end Definer

/-- A definition is reported exactly if there is another one of the same label before it. -/
theorem redefinition?_eq {before : List (ScopeState × Nat × Statement)}
    {y : ScopeState × Nat × Statement} {symbol : Symbol}
    (hitem : y.2.2.item.defined? = some symbol) :
    redefinition? before y = (definer? before (symbol.keyIn y.1.inner)).map fun _ =>
      ⟨y.2.2.location, .symbol (.duplicateLabel symbol)⟩ := by
  simp only [redefinition?, hitem]
  cases hfirst : definer? before (symbol.keyIn y.1.inner) with
  | none => rw [if_neg (definer?_eq_none.mp hfirst), Option.map_none]
  | some first =>
    have hdefined : DefinedIn before y.1 symbol :=
      Decidable.not_not.mp fun h => by simp [definer?_eq_none.mpr h] at hfirst
    rw [if_pos hdefined, Option.map_some]

/-- Where nothing is reported every label is known by its own definition. -/
theorem definer?_of_redefinitions_eq_nil {leaves : List (Nat × Statement)}
    (h : redefinitions leaves = []) {y : ScopeState × Nat × Statement} (hy : y ∈ along leaves)
    {key : Option Nat × String} (hkey : definedAs? y = some key) :
    definer? (along leaves) key = some y.2.1 := by
  induction leaves using List.reverseRecOn with
  | nil => cases hy
  | append_singleton before l ih =>
    rw [redefinitions_concat, List.append_eq_nil_iff, Option.toList_eq_nil_iff] at h
    rw [ScopeState.along_concat, List.mem_append, List.mem_singleton] at hy
    rw [ScopeState.along_concat, definer?_append]
    rcases hy with hy | rfl
    · rw [ih h.1 hy, Option.some_or]
    · obtain ⟨symbol, hitem, rfl⟩ := Option.map_eq_some_iff.mp hkey
      rw [redefinition?_eq hitem, Option.map_eq_none_iff] at h
      rw [h.2, Option.none_or, definer?_cons, if_pos hkey]

/-! ## Reports among the faults -/

/-- The fault is that a label is defined twice. -/
def Fault.isDuplicateLabel : Fault → Bool
  | .symbol (.duplicateLabel _) => true
  | _ => false

namespace Context

variable {c : Context} {st : Statement}

/-- The reports among the faults that some label is defined twice. -/
def duplicates (c : Context) : List (Located Fault) :=
  c.diagnostics.errors.filter fun fault => fault.value.isDuplicateLabel

theorem duplicates_error (location : Location) (fault : Fault) :
    (c.error location fault).duplicates =
      c.duplicates ++ if fault.isDuplicateLabel then [⟨location, fault⟩] else [] := by
  rw [duplicates, error, Diagnostics.error, List.filter_append, List.filter_singleton]
  cases fault.isDuplicateLabel <;> rfl

theorem duplicates_restart : c.restart.duplicates = c.duplicates := by
  unfold restart
  dsimp only
  split
  · rfl
  · rename_i e he
    have hother : (Fault.symbol e).isDuplicateLabel = false := by
      unfold Environment.unclosed? at he
      split at he
      · cases he
      · cases he
        rfl
    rw [duplicates_error, hother]
    exact List.append_nil _

theorem duplicates_followStructure : (c.followStructure st).duplicates = c.duplicates := by
  obtain ⟨location, item⟩ := st
  cases item with
  | scopeEnd =>
    cases hinner : c.env.inner with
    | nil =>
      simp [followStructure, followStructure?, Environment.exitScope?, hinner, duplicates_error,
        Fault.isDuplicateLabel]
    | cons scope rest =>
      simp [followStructure, followStructure?, Environment.exitScope?, hinner, duplicates]
  | _ => rfl

theorem duplicates_of_clean (h : c.hasErrors = false) : c.duplicates = [] := by
  rw [duplicates, hasErrors_eq_false.mp h]
  rfl

end Context

/-! ## What is noted -/

/-- What the discovery knows of definitions: what it has reported, who has defined which label
first, and which statements were reported. -/
structure Notes where
  faults : List (Located Fault) := []
  definitions : Table (Option Nat × String) Nat := {}
  reported : List Nat := []

namespace Notes

/-- Takes note of a statement. -/
def add (n : Notes) (y : ScopeState × Nat × Statement) : Notes :=
  match y.2.2.item.defined? with
  | none => n
  | some symbol =>
    match n.definitions.get? (symbol.keyIn y.1.inner) with
    | none => { n with definitions := n.definitions.insert (symbol.keyIn y.1.inner) y.2.1 }
    | some first =>
      if first = y.2.1 || n.reported.contains y.2.1 then n
      else
        { n with
          faults := n.faults ++ [⟨y.2.2.location, .symbol (.duplicateLabel symbol)⟩]
          reported := y.2.1 :: n.reported }

/-- The notes of a context and of what the discovery has in mind. -/
def of (c : Context) (d : Discovery) : Notes :=
  ⟨c.duplicates, d.definitions, d.reported⟩

end Notes

namespace Pass

/-- What is noted where a label is defined. -/
theorem notes_noteDefinition (s : Sweep Discovery) {l : Nat × Statement} {symbol : Symbol}
    (hitem : l.2.item.defined? = some symbol) :
    let t := noteDefinition s l.1 l.2.location symbol
    Notes.of t.context t.memory =
      (Notes.of s.context s.memory).add (s.context.env.scopeState, l) := by
  have hkey : Discovery.key s.context.env symbol = symbol.keyIn s.context.env.inner := by
    cases symbol <;> rfl
  simp only [noteDefinition, Notes.add, Notes.of, hitem, Environment.scopeState, hkey]
  cases hfirst : s.memory.definitions.get? (symbol.keyIn s.context.env.inner) with
  | none => rfl
  | some first =>
    dsimp only
    by_cases hnoted : (decide (first = l.1) || s.memory.reported.contains l.1) = true
    · rw [if_pos hnoted]
      exact (if_pos hnoted).symm
    · rw [if_neg hnoted, Sweep.error, Sweep.mapContext, Context.duplicates_error]
      exact (if_neg hnoted).symm

/-- **What the discovery notes at a statement** depends on its notes and the open scopes alone. -/
theorem notes_initLabels (s : Sweep Discovery) (l : Nat × Statement) :
    let t := Visit.step initLabels s l
    Notes.of t.context t.memory =
      (Notes.of s.context s.memory).add (s.context.env.scopeState, l) := by
  cases hitem : l.2.item.defined? with
  | some symbol =>
    obtain ⟨value, hlabel⟩ := Item.defined?_eq_some.mp hitem
    -- Neither binding a label nor warning of its name is noted.
    have hbind (t : Sweep Discovery) :
        Notes.of (bindIfValid t symbol value).context (bindIfValid t symbol value).memory =
          Notes.of t.context t.memory := by
      unfold bindIfValid
      dsimp only
      split <;> rfl
    have hwarn (t : Sweep Discovery) :
        Notes.of (warnOfName t l.2.location symbol).context
            (warnOfName t l.2.location symbol).memory = Notes.of t.context t.memory := by
      unfold warnOfName
      split
      · split <;> rfl
      · rfl
    simp only [Visit.step, initLabels, Visit.observe, hlabel]
    rw [hwarn, hbind]
    exact notes_noteDefinition s hitem
  | none =>
    rw [Notes.add, hitem]
    obtain ⟨id, location, item⟩ := l
    cases item with
    | label symbol value => cases hitem
    | setPc target | advance target fill => rfl
    | _ =>
      exact congrArg (fun faults => Notes.mk faults _ _) Context.duplicates_followStructure

end Pass

theorem Workspace.notes_foldl (w : Workspace) (d : Discovery) (before : List (Nat × Statement)) :
    let s := before.foldl (Visit.step Pass.initLabels) (w.opening d)
    Notes.of s.context s.memory = (along before).foldl Notes.add (Notes.of w.context d) := by
  induction before using List.reverseRecOn with
  | nil => exact congrArg (fun faults => Notes.mk faults _ _) Context.duplicates_restart
  | append_singleton before l ih =>
    rw [ScopeState.along_concat, List.foldl_append, List.foldl_append]
    dsimp only [List.foldl_cons, List.foldl_nil]
    rw [Pass.notes_initLabels, Workspace.scopeState_foldl Pass.inPlace_initLabels.faithful, ih]

/-- **A round** takes note of all statements, and of nothing else. -/
theorem Workspace.notes_runPass {w : Workspace} (hw : w.Clean) (d : Discovery) :
    Notes.of (w.runPass .initLabels d).1.context (w.runPass .initLabels d).2.2 =
      (along w.program.leaves).foldl Notes.add (Notes.of w.context d) := by
  rw [runPass_initLabels hw, sweep_eq]
  refine Eq.trans ?_ (w.notes_foldl d.nextRound w.program.leaves)
  exact congrArg (fun faults => Notes.mk faults _ _) Context.duplicates_restart

/-! ## The first round -/

/-- Behind some statements the definitions are reported that have another one of the same label
before them, and every label is known by its first definition. -/
structure Notes.Complete (before : List (Nat × Statement)) (n : Notes) : Prop where
  faults : n.faults = redefinitions before
  definitions : ∀ key, n.definitions.get? key = definer? (along before) key
  reported : n.reported ⊆ before.map (·.1)

namespace Notes

variable {n : Notes} {before leaves : List (Nat × Statement)} {l : Nat × Statement}

namespace Complete

variable {symbol : Symbol}

theorem reported_concat (h : n.Complete before) : n.reported ⊆ (before ++ [l]).map (·.1) := by
  rw [List.map_append]
  exact List.Subset.trans h.reported (List.subset_append_left _ _)

theorem definer?_concat (h : n.Complete before) (key : Option Nat × String) :
    definer? (along (before ++ [l])) key = (n.definitions.get? key).or
      (if definedAs? (behind before, l) = some key then some l.1 else none) := by
  rw [ScopeState.along_concat, definer?_append, h.definitions, definer?_cons]
  rfl

theorem redefinition?_concat (h : n.Complete before) (hitem : l.2.item.defined? = some symbol) :
    redefinition? (along before) (behind before, l) =
      (n.definitions.get? (symbol.keyIn (behind before).inner)).map fun _ =>
        ⟨l.2.location, .symbol (.duplicateLabel symbol)⟩ := by
  rw [h.definitions]
  exact redefinition?_eq (y := (behind before, l)) hitem

theorem other (h : n.Complete before) (hitem : l.2.item.defined? = none) :
    n.Complete (before ++ [l]) := by
  have hreport : redefinition? (along before) (behind before, l) = none := by
    rw [redefinition?, hitem]
  refine ⟨?_, fun key => ?_, h.reported_concat⟩
  · rw [redefinitions_concat, hreport, h.faults, Option.toList_none, List.append_nil]
  · rw [h.definer?_concat, definedAs?, hitem]
    exact Option.or_none.symm

/-- A label that is not known yet is known by the statement that defines it now. -/
theorem first (h : n.Complete before) (hitem : l.2.item.defined? = some symbol)
    (hnew : n.definitions.get? (symbol.keyIn (behind before).inner) = none) :
    Complete (before ++ [l]) { n with
      definitions := n.definitions.insert (symbol.keyIn (behind before).inner) l.1 } := by
  have hkey : definedAs? (behind before, l) = some (symbol.keyIn (behind before).inner) :=
    definedAs?_eq hitem
  refine ⟨?_, fun key => ?_, h.reported_concat⟩
  · rw [redefinitions_concat, h.redefinition?_concat hitem, hnew, h.faults, Option.map_none,
      Option.toList_none, List.append_nil]
  · rw [h.definer?_concat, hkey, Table.get?_insert]
    by_cases heq : symbol.keyIn (behind before).inner = key
    · rw [if_pos heq, ← heq, hnew, if_pos rfl, Option.none_or]
    · rw [if_neg heq, if_neg fun h => heq (Option.some.inj h), Option.or_none]

/-- A label that is known stays known by its first definition, and the new one is reported. -/
theorem again (h : n.Complete before) (hitem : l.2.item.defined? = some symbol) {number : Nat}
    (hknown : n.definitions.get? (symbol.keyIn (behind before).inner) = some number) :
    Complete (before ++ [l]) { n with
      faults := n.faults ++ [⟨l.2.location, .symbol (.duplicateLabel symbol)⟩]
      reported := l.1 :: n.reported } := by
  have hkey : definedAs? (behind before, l) = some (symbol.keyIn (behind before).inner) :=
    definedAs?_eq hitem
  refine ⟨?_, fun key => ?_, ?_⟩
  · rw [redefinitions_concat, h.redefinition?_concat hitem, hknown, h.faults, Option.map_some,
      Option.toList_some]
  · rw [h.definer?_concat, hkey]
    by_cases heq : symbol.keyIn (behind before).inner = key
    · rw [← heq, hknown, Option.some_or]
    · rw [if_neg fun h => heq (Option.some.inj h), Option.or_none]
  · exact List.cons_subset.mpr ⟨by simp, h.reported_concat⟩

theorem number_mem (h : n.Complete before) {key : Option Nat × String} {number : Nat}
    (hknown : n.definitions.get? key = some number) : number ∈ before.map (·.1) := by
  rw [h.definitions] at hknown
  rw [← ScopeState.map_along before, List.map_map]
  exact number_of_definer? hknown

/-- **One more statement** is noted as it should be if its number is new. -/
theorem add (h : n.Complete before) (hfresh : l.1 ∉ before.map (·.1)) :
    (n.add (behind before, l)).Complete (before ++ [l]) := by
  unfold Notes.add
  cases hitem : l.2.item.defined? with
  | none => exact h.other hitem
  | some symbol =>
    dsimp only
    cases hknown : n.definitions.get? (symbol.keyIn (behind before).inner) with
    | none => exact h.first hitem hknown
    | some number =>
      -- The first definition is another statement, and this one was not reported so far.
      have hother : number ≠ l.1 := by
        rintro rfl
        exact hfresh (h.number_mem hknown)
      have hunreported : l.1 ∉ n.reported := fun hmem => hfresh (h.reported hmem)
      dsimp only
      rw [if_neg (by simp [hother, hunreported])]
      exact h.again hitem hknown

end Complete

/-- **The first round** reports what is to be reported if numbers tell the statements apart. -/
theorem complete_foldl (hleaves : (leaves.map (·.1)).Nodup) :
    ((along leaves).foldl Notes.add {}).Complete leaves := by
  induction leaves using List.reverseRecOn with
  | nil => exact ⟨rfl, fun _ => rfl, List.nil_subset _⟩
  | append_singleton before l ih =>
    rw [List.map_append, List.nodup_append] at hleaves
    obtain ⟨hbefore, -, hfresh⟩ := hleaves
    rw [ScopeState.along_concat, List.foldl_append]
    exact (ih hbefore).add fun hmem => hfresh _ hmem _ List.mem_cons_self rfl

/-- A round adds nothing to the notes if every label is known by its own definition. -/
theorem foldl_add_eq_self {ys : List (ScopeState × Nat × Statement)}
    (h : ∀ y ∈ ys, ∀ key, definedAs? y = some key → n.definitions.get? key = some y.2.1) :
    ys.foldl Notes.add n = n := by
  induction ys with
  | nil => rfl
  | cons y rest ih =>
    obtain ⟨hy, hrest⟩ := List.forall_mem_cons.mp h
    have hstep : n.add y = n := by
      unfold Notes.add
      cases hitem : y.2.2.item.defined? with
      | none => rfl
      | some symbol => simp [hy _ (definedAs?_eq hitem)]
    rw [List.foldl_cons, hstep, ih hrest]

end Notes

/-! ## All rounds -/

namespace Workspace

theorem round_initLabels (w : Workspace) (ms : List Stage.Memory) :
    Stage.runAll [.pass .initLabels] w ms =
      let r := w.runPass .initLabels (ms.headD .fresh).discovery
      (r.1, r.2.1, [.pass r.2.2]) := by
  simp only [Stage.runAll, Stage.run]

/-- Every label is known by its own definition, and no definition is reported. -/
structure Settled (leaves : List (Nat × Statement)) (w : Workspace) (d : Discovery) : Prop where
  statements : w.program.leaves = leaves
  faults : w.context.duplicates = []
  own : ∀ y ∈ along leaves, ∀ key, definedAs? y = some key →
    d.definitions.get? key = some y.2.1

theorem Settled.runPass {leaves : List (Nat × Statement)} {w : Workspace} {d : Discovery}
    (h : Settled leaves w d) (hw : w.Clean) :
    Settled leaves (w.runPass .initLabels d).1 (w.runPass .initLabels d).2.2 := by
  have hnotes := notes_runPass hw d
  rw [h.statements, Notes.foldl_add_eq_self h.own] at hnotes
  obtain ⟨hfaults, hdefinitions, -⟩ := Notes.mk.inj hnotes
  refine ⟨(leaves_runPass_initLabels d).trans h.statements, hfaults.trans h.faults, ?_⟩
  rw [hdefinitions]
  exact h.own

/-- **Labels that are defined twice** are reported exactly. If no fault was found before the
discovery of labels, then the reports that some label is defined twice are, however many rounds
there may be, one for every definition that has another one of the same label before it, where it
stands. Numbers tell the nodes of a program apart when it is read (`Source.numbered_read`), and
behind every stage (`Assembly.numbered_behindStage`). -/
theorem redefinitions_reported (w : Workspace) (hclean : w.Clean) (hnumbered : w.program.Numbered)
    (name : String) (rounds : Nat) :
    ((Stage.fixpoint name [.pass .initLabels] (rounds + 1)).go w).1.context.duplicates =
      redefinitions w.program.leaves := by
  have hfirst := notes_runPass hclean {}
  have hstart : Notes.of w.context {} = {} :=
    congrArg (fun faults => Notes.mk faults _ _) (Context.duplicates_of_clean hclean)
  have hcomplete := Notes.complete_foldl hnumbered.nodup_leaves
  rw [hstart] at hfirst
  rw [← hfirst] at hcomplete
  rw [Stage.fst_go, Stage.run_fixpoint, iterate_succ hclean]
  simp only [round_initLabels]
  split
  · exact hcomplete.faults
  · rename_i hnext
    -- There is a second round, so nothing was reported, and every label is known by its own
    -- definition: that stays so.
    have hclean' : (w.runPass .initLabels {}).1.Clean :=
      (Bool.or_eq_false_iff.mp (Bool.eq_false_iff.mpr hnext)).1
    have hnone : redefinitions w.program.leaves = [] :=
      hcomplete.faults.symm.trans (Context.duplicates_of_clean hclean')
    have hsettled : Settled w.program.leaves (w.runPass .initLabels {}).1
        (w.runPass .initLabels {}).2.2 := by
      refine ⟨leaves_runPass_initLabels {}, Context.duplicates_of_clean hclean', ?_⟩
      intro y hy key hkey
      exact (hcomplete.definitions key).trans (definer?_of_redefinitions_eq_nil hnone hy hkey)
    rw [hnone]
    refine (kept_iterate (A := fun w' ms =>
      Settled w.program.leaves w' (ms.headD .fresh).discovery) ?_ ?_ _ _ hsettled).faults
    · exact fun hw' h => h.runPass hw'
    · intro w' ms h
      refine ⟨h.statements, ?_, h.own⟩
      rw [Context.duplicates_error, h.faults]
      rfl

/-- A local label in two scopes, twice in the second one, and a global label that is defined again
inside of that scope. -/
def labelsTwice : Program :=
  let line (n : Nat) (item : Item) : Node := .leaf n ⟨.source "main" n 1, item⟩
  ⟨[line 1 (.label (.global "start") .programCounter),
    line 2 .scopeBegin,
    line 3 (.label (.inScope "loop") .programCounter),
    line 4 .scopeEnd,
    line 5 .scopeBegin,
    line 6 (.label (.inScope "loop") .programCounter),
    line 7 (.label (.inScope "loop") .programCounter),
    line 8 (.label (.global "start") .programCounter),
    line 9 .scopeEnd], 10⟩

theorem redefinitions_reported_labelsTwice :
    let w : Workspace := ⟨labelsTwice, { cpu := .mos6502 }⟩
    w.Clean ∧ w.program.Numbered ∧ (Stage.discovery.go w).1.context.duplicates =
      [⟨.source "main" 7 1, .symbol (.duplicateLabel (.inScope "loop"))⟩,
        ⟨.source "main" 8 1, .symbol (.duplicateLabel (.global "start"))⟩] := by
  intro w
  have hstage : Stage.discovery =
      .fixpoint "label initialization" [.pass .initLabels] (99 + 1) := rfl
  have hnumbered : w.program.Numbered := ⟨by decide +kernel, by decide +kernel⟩
  rw [hstage, redefinitions_reported w rfl hnumbered]
  exact ⟨rfl, hnumbered, by decide +kernel⟩

end Workspace
end Assembler6502
