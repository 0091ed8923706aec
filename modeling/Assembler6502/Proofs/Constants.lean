import Mathlib.Data.List.Pairwise
import Assembler6502.Proofs.Rounds
import Assembler6502.Proofs.Validity

/-!
# Programs of data and constants

A program that has only data, parts of files and constants in it is prepared without any surprise.
Its constants are labels whose expressions mention no label and not the program counter, so all of
them are bound in the first round of discovery, and have their values behind the first update. No
pass changes the program, and none reports anything. What is left to do is to write the bytes.

## Main definitions

* `Expr.Defined`: an expression that has a value as soon as some names have
* `Item.Plain`, `Program.Plain`: data, parts of files and constants
* `Workspace.knowing`: a program in preparation, with nothing found but the values of names

## Main results

* `Workspace.sweep_knowing`: what holds of the names behind each statement holds behind a pass
* `Assembly.runStages_plain`: the stages give the constants their values and do nothing else
-/

namespace Assembler6502

/-! ## Plain programs -/

/-- The expression has a value as soon as some names have. -/
def Expr.Defined (names : List String) (e : Expr) : Prop :=
  ∀ ν : Valuation, (∀ name ∈ names, (ν.lookup (.global name)).isSome) →
    ∃ v, e.evaluate ν = .ok v

/-- The name that an item gives a value to. -/
def Item.constant? : Item → Option String
  | .label (.global name) _ => some name
  | _ => none

/-- An item that is data, part of a file or a constant. Constants have the values `σ`, and the other
items mention no name but `names`. -/
inductive Item.Plain (names : List String) (σ : String → Value) : Item → Prop
  | data (width : Width) (endian : Endian) {values : List Expr}
      (h : ∀ e ∈ values, e.Defined names) : Plain names σ (.data width endian values)
  | byteRange (bytes : List UInt8) {offset length : Expr} (ho : offset.Defined names)
      (hl : length.Defined names) : Plain names σ (.byteRange offset length bytes)
  | constant {name : String} {e : Expr} (he : e.isHardcoded = true)
      (hv : ∀ ν, e.evaluate ν = .ok (σ name)) : Plain names σ (.label (.global name) e)

theorem Item.Plain.simple {names : List String} {σ : String → Value} {item : Item}
    (h : item.Plain names σ) : item.Simple := by
  cases h <;> trivial

/-- The names that some statements give values to. -/
def constants (leaves : List (Nat × Statement)) : List String :=
  leaves.filterMap (·.2.item.constant?)

section Append

variable {done : List (Nat × Statement)} {l : Nat × Statement} {name : String}

theorem constants_append_of_none (h : l.2.item.constant? = none) :
    constants (done ++ [l]) = constants done := by
  simp [constants, h]

theorem constants_append_of_some (h : l.2.item.constant? = some name) :
    constants (done ++ [l]) = constants done ++ [name] := by
  simp [constants, h]

end Append

/-- A program of data, parts of files and constants. No constant is defined twice or named like a
register or an operation. -/
structure Program.Plain (cpu : Cpu) (σ : String → Value) (p : Program) : Prop where
  items : ∀ l ∈ p.leaves, l.2.item.Plain (constants p.leaves) σ
  distinct : (constants p.leaves).Nodup
  unwarned : ∀ name ∈ constants p.leaves, Pass.nameWarning? cpu (.global name) = none

theorem Item.Plain.mono {names names' : List String} {σ : String → Value} {item : Item}
    (h : item.Plain names σ) (hnames : ∀ name ∈ names, name ∈ names') : item.Plain names' σ := by
  have hdefined {e : Expr} (he : e.Defined names) : e.Defined names' := fun ν hν =>
    he ν fun name hname => hν name (hnames name hname)
  cases h with
  | data width endian h => exact .data width endian fun e he => hdefined (h e he)
  | byteRange bytes ho hl => exact .byteRange bytes (hdefined ho) (hdefined hl)
  | constant he hv => exact .constant he hv

/-- Whether a program is plain does not depend on the order of its statements. -/
theorem Program.plain_of_perm {cpu : Cpu} {σ : String → Value} {p : Program} {items : List Item}
    (hitems : (p.leaves.map (·.2.item)).Perm items)
    (hplain : ∀ item ∈ items, item.Plain (items.filterMap Item.constant?) σ)
    (hdistinct : (items.filterMap Item.constant?).Nodup)
    (hunwarned : ∀ name ∈ items.filterMap Item.constant?,
      Pass.nameWarning? cpu (.global name) = none) : p.Plain cpu σ := by
  have hnames : (constants p.leaves).Perm (items.filterMap Item.constant?) := by
    have hperm := hitems.filterMap Item.constant?
    rwa [List.filterMap_map] at hperm
  refine ⟨fun l hl => ?_, hnames.nodup_iff.mpr hdistinct, fun name hname => ?_⟩
  · have hmem : l.2.item ∈ items := hitems.mem_iff.mp (List.mem_map_of_mem hl)
    exact (hplain _ hmem).mono fun name => hnames.mem_iff.mpr
  · exact hunwarned name (hnames.mem_iff.mp hname)

/-- Two statements that define the same constant are one. -/
theorem Program.Plain.eq_of_constant? {cpu : Cpu} {σ : String → Value} {p : Program}
    (hp : p.Plain cpu σ) {l l' : Nat × Statement} (hl : l ∈ p.leaves) (hl' : l' ∈ p.leaves)
    {name : String} (h : l.2.item.constant? = some name) (h' : l'.2.item.constant? = some name) :
    l = l' := by
  have hpairs := List.pairwise_filterMap.mp hp.distinct
  by_cases heq : l = l'
  · exact heq
  · have hsymm : Std.Symm fun a b : Nat × Statement => ∀ m, a.2.item.constant? = some m →
        ∀ n, b.2.item.constant? = some n → m ≠ n :=
      ⟨fun a b hab m hm n hn => (hab n hn m hm).symm⟩
    exact absurd rfl (hpairs.forall hl hl' heq name h name h')

/-! ## Knowing names -/

namespace Table

/-- All of some names have values. -/
def Binds (t : Table String Value) (names : List String) : Prop :=
  ∀ name ∈ names, (t.get? name).isSome

/-- Some names have the values `σ`. -/
def Settles (t : Table String Value) (σ : String → Value) (names : List String) : Prop :=
  ∀ name ∈ names, t.get? name = some (σ name)

variable {t : Table String Value} {σ : String → Value} {names : List String}

/-- One more name gets its value. -/
theorem Settles.insert (h : t.Settles σ names) (name : String) :
    (t.insert name (σ name)).Settles σ (names ++ [name]) := by
  intro other hother
  rw [get?_insert]
  by_cases heq : name = other
  · rw [if_pos heq, heq]
  · rw [if_neg heq]
    obtain hother | hother := List.mem_append.mp hother
    · exact h other hother
    · exact absurd (List.mem_singleton.mp hother).symm heq

/-- A name that has no value gets one, and a name that has one keeps it. -/
theorem Binds.insert (h : t.Binds names) (name : String) (v : Value) :
    (if (t.get? name).isSome then t else t.insert name v).Binds (names ++ [name]) := by
  intro other hother
  by_cases hget : (t.get? name).isSome = true
  · rw [if_pos hget]
    obtain hother | hother := List.mem_append.mp hother
    · exact h other hother
    · rwa [List.mem_singleton.mp hother]
  · rw [if_neg hget, get?_insert]
    by_cases heq : name = other
    · rw [if_pos heq]
      rfl
    · rw [if_neg heq]
      obtain hother | hother := List.mem_append.mp hother
      · exact h other hother
      · exact absurd (List.mem_singleton.mp hother).symm heq

end Table

/-- The context in which nothing was found but the values of names. -/
def Context.knowing (cpu : Cpu) (t : Table String Value) (pc : Value) : Context :=
  { cpu, env := { globals := t, pc } }

namespace Context

variable {cpu : Cpu} {t : Table String Value} {pc : Value} {names : List String}
  {σ : String → Value} {e : Expr} {st : Statement}

theorem evaluate_of_defined (ht : t.Binds names) (he : e.Defined names) :
    ∃ v, (knowing cpu t pc).evaluate e = .ok v :=
  he _ ht

/-- A plain statement moves the program counter at most. -/
theorem follow_of_plain (cpu : Cpu) (t : Table String Value) (pc : Value)
    (h : st.item.Plain names σ) :
    ∃ pc', (knowing cpu t pc).follow st = knowing cpu t pc' := by
  obtain ⟨location, item⟩ := st
  cases h with
  | data width endian h => exact ⟨_, rfl⟩
  | constant he hv => exact ⟨_, rfl⟩
  | @byteRange bytes offset length ho hl =>
    cases hlength : (knowing cpu t pc).evaluate length with
    | ok n => exact ⟨Value.saturatingAdd pc n, by simp only [follow, trackPc?, hlength]; rfl⟩
    | error err => exact ⟨pc, by simp only [follow, trackPc?, hlength]⟩

end Context

namespace Workspace

/-- A program in preparation, with nothing found but the values of names. -/
def knowing (cpu : Cpu) (program : Program) (t : Table String Value) : Workspace :=
  ⟨program, .knowing cpu t 0⟩

variable {μ : Type} {cpu : Cpu} {program : Program} {t : Table String Value} {memory : μ}
  {visit : Visit μ} {close : Context → Context}

theorem clean_knowing : (knowing cpu program t).Clean := rfl

section Invariant

-- The pass returns every statement, finds nothing but the values of names, and keeps an invariant
-- from statement to statement. The invariant may mention the statements behind it.
variable {J : List (Nat × Statement) → Table String Value → Bool → μ → Prop}
  (hstep : ∀ done l rest, program.leaves = done ++ l :: rest → ∀ t pc size changed memory,
    J done t changed memory → ∃ t' pc' changed' memory',
      visit ⟨.knowing cpu t pc, size, changed, memory⟩ l.1 l.2 =
        (⟨.knowing cpu t' pc', size, changed', memory'⟩, .leaf l.1 l.2) ∧
      J (done ++ [l]) t' changed' memory')

include hstep

theorem walk_knowing {done rest : List (Nat × Statement)} (hleaves : program.leaves = done ++ rest)
    (pc : Value) (size : Nat) {changed : Bool} (hJ : J done t changed memory) :
    ∃ t' pc' changed' memory',
      rest.foldl visit.step ⟨.knowing cpu t pc, size, changed, memory⟩ =
        ⟨.knowing cpu t' pc', size, changed', memory'⟩ ∧
      J program.leaves t' changed' memory' ∧
      ∀ x ∈ reached visit.step ⟨.knowing cpu t pc, size, changed, memory⟩ rest,
        (visit x.1 x.2.1 x.2.2).2 = .leaf x.2.1 x.2.2 := by
  -- The statements behind grow while those that are still to come get fewer.
  induction rest generalizing done t pc changed memory with
  | nil =>
    rw [List.append_nil] at hleaves
    exact ⟨t, pc, changed, memory, rfl, hleaves ▸ hJ, fun x hx => nomatch hx⟩
  | cons l rest ih =>
    obtain ⟨t', pc', changed', memory', hvisit, hJ'⟩ :=
      hstep done l rest hleaves t pc size changed memory hJ
    have hnext : visit.step ⟨.knowing cpu t pc, size, changed, memory⟩ l =
        ⟨.knowing cpu t' pc', size, changed', memory'⟩ := congrArg Prod.fst hvisit
    obtain ⟨t'', pc'', changed'', memory'', hend, hlast, hback⟩ :=
      ih (by rw [hleaves, List.append_assoc, List.singleton_append]) pc' hJ'
    refine ⟨t'', pc'', changed'', memory'', ?_, hlast, ?_⟩
    · rw [List.foldl_cons, hnext, hend]
    · rw [reached_cons, hnext]
      exact List.forall_mem_cons.mpr ⟨congrArg Prod.snd hvisit, hback⟩

/-- **What holds of the names behind each statement holds behind a pass.** -/
theorem sweep_knowing (hclose : ∀ t pc, close (.knowing cpu t pc) = .knowing cpu t pc)
    (hJ : J [] t false memory) :
    ∃ t' changed memory', (knowing cpu program t).sweep memory visit close =
        (knowing cpu program t', changed, memory') ∧ J program.leaves t' changed memory' := by
  obtain ⟨t', pc', changed, memory', hend, hlast, hback⟩ :=
    walk_knowing hstep (List.nil_append program.leaves).symm 0 program.size hJ
  have hclosing : (knowing cpu program t).closing memory visit =
      ⟨.knowing cpu t' pc', program.size, changed, memory'⟩ := hend
  refine ⟨t', changed, memory', ?_, hlast⟩
  rw [sweep_eq, children_sweep_eq_self hback, hclosing]
  simp only [hclose]
  rfl

end Invariant

/-- A pass that leaves names alone at every statement stands still. -/
theorem sweep_knowing_still (hclose : ∀ t pc, close (.knowing cpu t pc) = .knowing cpu t pc)
    (hvisit : ∀ l ∈ program.leaves, ∀ s : Sweep μ, s.memory = memory → ∀ pc,
      s.context = .knowing cpu t pc → ∃ pc', visit s l.1 l.2 =
        ({ s with context := .knowing cpu t pc' }, .leaf l.1 l.2)) :
    (knowing cpu program t).sweep memory visit close = (knowing cpu program t, false, memory) := by
  obtain ⟨t', changed, memory', hsweep, ht, hchanged, hmemory⟩ : ∃ t' changed memory',
      (knowing cpu program t).sweep memory visit close =
        (knowing cpu program t', changed, memory') ∧
      t' = t ∧ changed = false ∧ memory' = memory := by
    refine sweep_knowing (J := fun _ t' changed memory' => t' = t ∧ changed = false ∧
      memory' = memory) ?_ hclose ⟨rfl, rfl, rfl⟩
    rintro done l rest hleaves t' pc size changed memory' ⟨rfl, hchanged, hmemory⟩
    have hl : l ∈ program.leaves := by simp [hleaves]
    obtain ⟨pc', hpc'⟩ :=
      hvisit l hl ⟨.knowing cpu t' pc, size, changed, memory'⟩ hmemory pc rfl
    exact ⟨t', pc', changed, memory', hpc', rfl, hchanged, hmemory⟩
  rw [hsweep, ht, hchanged, hmemory]

end Workspace

/-! ## Passes at a plain statement -/

namespace Pass

variable {names : List String} {σ : String → Value} {id : Nat} {st : Statement}

theorem checkCircularity_plain {s : Sweep Bool} (h : st.item.Plain names σ) :
    checkCircularity s id st = (s, .leaf id st) := by
  have hstructure := Sweep.followStructure_simple h.simple s
  obtain ⟨location, item⟩ := st
  cases h with
  | data | byteRange => simp only [checkCircularity, Visit.observe, hstructure]
  | constant he hv =>
    simp only [checkCircularity, Visit.observe, Expr.isValid_of_isHardcoded _ he, if_true]

theorem defined_of_plain (h : st.item.Plain names σ) :
    ∀ e ∈ st.item.expressions, e.Defined names := by
  obtain ⟨location, item⟩ := st
  cases h with
  | data width endian h => exact h
  | byteRange bytes ho hl => simpa [Item.expressions] using ⟨ho, hl⟩
  | constant he hv =>
    intro e hmem ν hν
    obtain rfl := List.mem_singleton.mp hmem
    exact ⟨_, hv ν⟩

/-- Every expression has a value when the names are bound. -/
theorem checkExpressions_plain {s : Sweep Unit} {cpu : Cpu} {t : Table String Value} {pc : Value}
    (h : st.item.Plain names σ) (ht : t.Binds names) (hs : s.context = .knowing cpu t pc) :
    checkExpressions s id st = (s, .leaf id st) := by
  have htried (es : List Expr) (hes : ∀ e ∈ es, e.Defined names) :
      es.foldl (checkExpression st.location) s.context = s.context := by
    induction es with
    | nil => rfl
    | cons e es ih =>
      obtain ⟨he, hes⟩ := List.forall_mem_cons.mp hes
      obtain ⟨v, hv⟩ : ∃ v, (Context.knowing cpu t pc).evaluate e = .ok v :=
        Context.evaluate_of_defined ht he
      have hchecked : checkExpression st.location s.context e = s.context := by
        simp only [checkExpression, hs, hv]
      rw [List.foldl_cons, hchecked, ih hes]
  simp only [checkExpressions, Visit.observe, Sweep.mapContext,
    Context.followStructure?_simple h.simple, htried _ (defined_of_plain h)]

theorem easyModes_plain {s : Sweep Unit} (h : st.item.Plain names σ) :
    easyModes s id st = (s, .leaf id st) := by
  have hstructure := Sweep.followStructure_simple h.simple s
  obtain ⟨location, item⟩ := st
  cases h <;> simp only [easyModes, hstructure]

theorem normalizeModes_plain {s : Sweep Unit} (h : st.item.Plain names σ) :
    normalizeModes s id st = (s, .leaf id st) := by
  have hstructure := Sweep.followStructure_simple h.simple s
  obtain ⟨location, item⟩ := st
  cases h <;> simp only [normalizeModes, hstructure]

theorem collapse_plain {s : Sweep Unit} (h : st.item.Plain names σ) :
    collapse s id st = (s.mapContext (·.follow st), .leaf id st) := by
  obtain ⟨location, item⟩ := st
  cases h <;> rfl

theorem extendBranches_plain {s : Sweep Unit} (h : st.item.Plain names σ) :
    extendBranches s id st = (s.mapContext (·.follow st), .leaf id st) := by
  obtain ⟨location, item⟩ := st
  cases h <;> rfl

theorem updateLabels_plain {s : Sweep Unit} (h : st.item.Plain names σ)
    (hname : st.item.constant? = none) :
    updateLabels s id st = (s.mapContext (·.follow st), .leaf id st) := by
  obtain ⟨location, item⟩ := st
  cases h with
  | data | byteRange => rfl
  | constant => cases hname

theorem initLabels_plain {s : Sweep Discovery} (h : st.item.Plain names σ)
    (hname : st.item.constant? = none) : initLabels s id st = (s, .leaf id st) := by
  have hstructure := Sweep.followStructure_simple h.simple s
  obtain ⟨location, item⟩ := st
  cases h with
  | data | byteRange => simp only [initLabels, Visit.observe, hstructure]
  | constant => cases hname

/-- Updating a constant gives it its value. -/
theorem updateLabels_defines {cpu : Cpu} {t : Table String Value} {pc : Value} {size : Nat}
    {changed : Bool} {name : String} (h : st.item.Plain names σ)
    (hname : st.item.constant? = some name) :
    updateLabels ⟨.knowing cpu t pc, size, changed, ()⟩ id st =
      (⟨.knowing cpu (t.insert name (σ name)) pc, size,
        if t.get? name = some (σ name) then changed else true, ()⟩, .leaf id st) := by
  obtain ⟨location, item⟩ := st
  cases h with
  | data | byteRange => cases hname
  | constant he hv =>
    cases hname
    have hvalue (s : Sweep Unit) : s.valueOf location _ = (σ name, s) :=
      Sweep.valueOf_of_evaluate (hv _)
    have hlookup : (Context.knowing cpu t pc).env.lookup (.global name) = t.get? name := rfl
    simp only [updateLabels, Visit.observe, hvalue, hlookup]
    split <;> rfl

/-- Discovery binds a constant, and notes where it is defined. -/
theorem initLabels_defines {cpu : Cpu} {t : Table String Value} {pc : Value} {size : Nat}
    {changed : Bool} {d : Discovery} {name : String} (h : st.item.Plain names σ)
    (hname : st.item.constant? = some name)
    (hnoted : d.definitions.get? (none, name) = none ∨ d.definitions.get? (none, name) = some id)
    (hwarning : nameWarning? cpu (.global name) = none) :
    initLabels ⟨.knowing cpu t pc, size, changed, d⟩ id st =
      (⟨.knowing cpu (if (t.get? name).isSome then t else t.insert name 0) pc, size,
        if (t.get? name).isSome then changed else true,
        { d with definitions := d.definitions.insert (none, name) id }⟩, .leaf id st) := by
  obtain ⟨location, item⟩ := st
  cases h with
  | data | byteRange => cases hname
  | @constant _ e he hv =>
    cases hname
    -- The definition is noted, then bound, then looked at for a warning.
    have hnote : noteDefinition ⟨.knowing cpu t pc, size, changed, d⟩ id location (.global name) =
        ⟨.knowing cpu t pc, size, changed,
          { d with definitions := d.definitions.insert (none, name) id }⟩ := by
      obtain hnone | hsome := hnoted
      · simp only [noteDefinition, Discovery.key, hnone]
      · simp only [noteDefinition, Discovery.key, hsome, Table.insert_of_get? hsome]
        simp
    have hbind (d : Discovery) :
        bindIfValid ⟨.knowing cpu t pc, size, changed, d⟩ (.global name) e =
        ⟨.knowing cpu (if (t.get? name).isSome then t else t.insert name 0) pc, size,
          if (t.get? name).isSome then changed else true, d⟩ := by
      have hcontains : (Context.knowing cpu t pc).env.contains (.global name) =
          (t.get? name).isSome := rfl
      simp only [bindIfValid, Expr.isValid_of_isHardcoded _ he, Bool.true_and, hcontains]
      cases (t.get? name).isSome <;> rfl
    have hwarn (t : Table String Value) (changed : Bool) (d : Discovery) :
        warnOfName ⟨.knowing cpu t pc, size, changed, d⟩ location (.global name) =
          ⟨.knowing cpu t pc, size, changed, d⟩ := by
      have hnone : nameWarning? (Context.knowing cpu t pc).cpu (.global name) = none := hwarning
      simp only [warnOfName, hnone, ite_self]
    simp only [initLabels, Visit.observe, hnote, hbind, hwarn]

end Pass

/-! ## Passes over a plain program -/

/-- No name has been defined but where the statement that defines it stands. -/
def Discovery.Notes (leaves : List (Nat × Statement)) (d : Discovery) : Prop :=
  ∀ l ∈ leaves, ∀ name, l.2.item.constant? = some name →
    d.definitions.get? (none, name) = none ∨ d.definitions.get? (none, name) = some l.1

/-- Another statement defines another constant. -/
theorem Discovery.Notes.insert {cpu : Cpu} {program : Program} {σ : String → Value}
    {d : Discovery} (hd : d.Notes program.leaves) (hp : program.Plain cpu σ)
    {l : Nat × Statement} (hl : l ∈ program.leaves) {name : String}
    (hname : l.2.item.constant? = some name) :
    Notes program.leaves { d with definitions := d.definitions.insert (none, name) l.1 } := by
  intro l' hl' name' hname'
  simp only [Table.get?_insert, Prod.mk.injEq, true_and]
  by_cases heq : name = name'
  · subst heq
    rw [if_pos rfl, hp.eq_of_constant? hl hl' hname hname']
    exact .inr rfl
  · rw [if_neg heq]
    exact hd l' hl' name' hname'

namespace Workspace

variable {cpu : Cpu} {program : Program} {σ : String → Value}

/-- **An update gives all constants their values**, and changes nothing if they have them. -/
theorem sweep_updateLabels (hp : program.Plain cpu σ) (t : Table String Value) :
    ∃ t' changed, (knowing cpu program t).sweep () Pass.updateLabels id =
        (knowing cpu program t', changed, ()) ∧
      t'.Settles σ (constants program.leaves) ∧
      (t.Settles σ (constants program.leaves) → t' = t ∧ changed = false) := by
  -- The constants behind have their values, and nothing was changed if all of them had.
  let J (done : List (Nat × Statement)) (t' : Table String Value) (changed : Bool) (_ : Unit) :=
    t'.Settles σ (constants done) ∧
      (t.Settles σ (constants program.leaves) → t' = t ∧ changed = false)
  obtain ⟨t', changed, ⟨⟩, hsweep, hsettled, hsame⟩ : ∃ t' changed memory,
      (knowing cpu program t).sweep () Pass.updateLabels id =
        (knowing cpu program t', changed, memory) ∧ J program.leaves t' changed memory := by
    refine sweep_knowing (J := J) ?_ (fun _ _ => rfl) ⟨nofun, fun _ => ⟨rfl, rfl⟩⟩
    rintro done l rest hleaves t' pc size changed ⟨⟩ ⟨hsettled, hsame⟩
    have hl : l ∈ program.leaves := by simp [hleaves]
    have hplain := hp.items l hl
    cases hname : l.2.item.constant? with
    | none =>
      obtain ⟨pc', hpc'⟩ := Context.follow_of_plain cpu t' pc hplain
      refine ⟨t', pc', changed, (), ?_, ?_, hsame⟩
      · rw [Pass.updateLabels_plain hplain hname, Sweep.mapContext, hpc']
      · rwa [constants_append_of_none hname]
    | some name =>
      refine ⟨_, _, _, _, Pass.updateLabels_defines hplain hname, ?_, ?_⟩
      · rw [constants_append_of_some hname]
        exact hsettled.insert name
      · intro ht
        obtain ⟨rfl, rfl⟩ := hsame ht
        have hget : t'.get? name = some (σ name) :=
          ht name (List.mem_filterMap.mpr ⟨l, hl, hname⟩)
        exact ⟨Table.insert_of_get? hget, if_pos hget⟩
  exact ⟨t', changed, hsweep, hsettled, hsame⟩

/-- **Discovery binds all constants**, and binds nothing if they are bound. -/
theorem sweep_initLabels (hp : program.Plain cpu σ) (t : Table String Value) {d : Discovery}
    (hd : d.Notes program.leaves) :
    ∃ t' changed d', (knowing cpu program t).sweep d Pass.initLabels id =
        (knowing cpu program t', changed, d') ∧ d'.Notes program.leaves ∧
      t'.Binds (constants program.leaves) ∧
      (t.Binds (constants program.leaves) → t' = t ∧ changed = false) := by
  -- The constants behind are bound, and nothing was changed if all of them were.
  let J (done : List (Nat × Statement)) (t' : Table String Value) (changed : Bool)
      (d : Discovery) :=
    d.Notes program.leaves ∧ t'.Binds (constants done) ∧
      (t.Binds (constants program.leaves) → t' = t ∧ changed = false)
  show ∃ t' changed d', (knowing cpu program t).sweep d Pass.initLabels id =
    (knowing cpu program t', changed, d') ∧ J program.leaves t' changed d'
  refine sweep_knowing (J := J) ?_ (fun _ _ => rfl) ⟨hd, nofun, fun _ => ⟨rfl, rfl⟩⟩
  rintro done l rest hleaves t' pc size changed d ⟨hnotes, hbound, hsame⟩
  have hl : l ∈ program.leaves := by simp [hleaves]
  have hplain := hp.items l hl
  cases hname : l.2.item.constant? with
  | none =>
    refine ⟨t', pc, changed, d, Pass.initLabels_plain hplain hname, hnotes, ?_, hsame⟩
    rwa [constants_append_of_none hname]
  | some name =>
    have hmem : name ∈ constants program.leaves := List.mem_filterMap.mpr ⟨l, hl, hname⟩
    refine ⟨_, _, _, _, Pass.initLabels_defines hplain hname (hnotes l hl name hname)
      (hp.unwarned name hmem), hnotes.insert hp hl hname, ?_, ?_⟩
    · rw [constants_append_of_some hname]
      exact hbound.insert name 0
    · intro ht
      obtain ⟨rfl, rfl⟩ := hsame ht
      have hget := ht name hmem
      exact ⟨if_pos hget, if_pos hget⟩

end Workspace

/-! ## Stages -/

namespace Stage

open Workspace (knowing clean_knowing)

variable {cpu : Cpu} {program : Program} {σ : String → Value} {t : Table String Value}

/-- A pass that returns a program stands still on it. -/
theorem still_knowing {μ : Type} {kind : Pass.Kind} {memory : μ} {visit : Visit μ}
    {close : Context → Context}
    (hrun : ∀ d, (knowing cpu program t).runPass kind d =
      (((knowing cpu program t).sweep memory visit close).1,
        ((knowing cpu program t).sweep memory visit close).2.1, d))
    (h : (knowing cpu program t).sweep memory visit close =
      (knowing cpu program t, false, memory)) :
    (pass kind).Still (· = knowing cpu program t) := .pass fun w d hw => by
  subst hw
  rw [hrun, h]
  exact ⟨rfl, rfl⟩

theorem still_group {name : String} {stages : List Stage} {rounds : Nat}
    (h : ∀ stage ∈ stages, stage.Still (· = knowing cpu program t)) :
    (fixpoint name stages (rounds + 1)).Still (· = knowing cpu program t) :=
  .fixpoint (fun _ hw => hw ▸ clean_knowing) h

section Plain

variable (hp : program.Plain cpu σ)

include hp

/-- A pass that leaves plain statements alone stands still on a plain program. -/
theorem still_of_plain {μ : Type} {kind : Pass.Kind} {memory : μ} {visit : Visit μ}
    {close : Context → Context}
    (hrun : ∀ d, (knowing cpu program t).runPass kind d =
      (((knowing cpu program t).sweep memory visit close).1,
        ((knowing cpu program t).sweep memory visit close).2.1, d))
    (hclose : ∀ t pc, close (.knowing cpu t pc) = .knowing cpu t pc)
    (h : ∀ (s : Sweep μ) pc id st, s.context = .knowing cpu t pc →
      st.item.Plain (constants program.leaves) σ → visit s id st = (s, .leaf id st)) :
    (pass kind).Still (· = knowing cpu program t) := by
  refine still_knowing hrun (Workspace.sweep_knowing_still hclose ?_)
  intro l hl s hmemory pc hs
  refine ⟨pc, ?_⟩
  rw [h s pc l.1 l.2 hs (hp.items l hl), ← hs]

theorem still_defineMacros : (pass .defineMacros).Still (· = knowing cpu program t) :=
  still_of_plain hp (fun _ => if_neg (Bool.eq_false_iff.mp clean_knowing)) (fun _ _ => rfl)
    fun _ _ _ _ hs hst => Pass.defineMacros_simple hst.simple (by rw [hs]; rfl)

theorem still_checkCircularity : (pass .checkCircularity).Still (· = knowing cpu program t) :=
  still_of_plain hp (fun _ => if_neg (Bool.eq_false_iff.mp clean_knowing)) (fun _ _ => rfl)
    fun _ _ _ _ _ hst => Pass.checkCircularity_plain hst

/-- A pass that follows plain statements stands still on a plain program. -/
theorem still_of_follow {kind : Pass.Kind} {visit : Visit Unit} (hkind : kind.visit? = some visit)
    (h : ∀ (s : Sweep Unit) id st, st.item.Plain (constants program.leaves) σ →
      visit s id st = (s.mapContext (·.follow st), .leaf id st)) :
    (pass kind).Still (· = knowing cpu program t) := by
  refine still_knowing (fun _ => Workspace.runPass_of_visit hkind clean_knowing)
    (Workspace.sweep_knowing_still (fun _ _ => rfl) ?_)
  intro l hl s hmemory pc hs
  obtain ⟨pc', hpc'⟩ := Context.follow_of_plain cpu t pc (hp.items l hl)
  refine ⟨pc', ?_⟩
  rw [h s l.1 l.2 (hp.items l hl), Sweep.mapContext, hs, hpc']

theorem still_updateLabels (ht : t.Settles σ (constants program.leaves)) :
    (pass .updateLabels).Still (· = knowing cpu program t) := by
  obtain ⟨t', changed, hsweep, -, hsame⟩ := Workspace.sweep_updateLabels hp t
  obtain ⟨rfl, rfl⟩ := hsame ht
  exact still_knowing (fun _ => Workspace.runPass_of_visit rfl clean_knowing) hsweep

theorem still_expansion : ∀ stage ∈ [pass .defineMacros, fixpoint "macro expansion"
    [pass .expandMacros]], stage.Still (· = knowing cpu program t) := by
  have hexpand : (pass .expandMacros).Still (· = knowing cpu program t) :=
    still_of_plain hp (fun _ => Workspace.runPass_of_visit rfl clean_knowing) (fun _ _ => rfl)
      fun _ _ _ _ _ hst => Pass.expandMacros_simple hst.simple
  refine List.forall_mem_cons.mpr ⟨still_defineMacros hp, ?_⟩
  exact List.forall_mem_singleton.mpr (still_group (List.forall_mem_singleton.mpr hexpand))

theorem still_checks (ht : t.Binds (constants program.leaves)) :
    ∀ stage ∈ [pass .checkCircularity, pass .checkExpressions, pass .easyModes],
      stage.Still (· = knowing cpu program t) := by
  refine List.forall_mem_cons.mpr ⟨still_checkCircularity hp, ?_⟩
  refine List.forall_mem_cons.mpr ⟨?_, List.forall_mem_singleton.mpr ?_⟩
  · exact still_of_plain hp (fun _ => Workspace.runPass_of_visit rfl clean_knowing)
      (fun _ _ => rfl) fun _ _ _ _ hs hst => Pass.checkExpressions_plain hst ht hs
  · exact still_of_plain hp (fun _ => Workspace.runPass_of_visit rfl clean_knowing)
      (fun _ _ => rfl) fun _ _ _ _ _ hst => Pass.easyModes_plain hst

theorem still_finish (ht : t.Settles σ (constants program.leaves)) :
    ∀ stage ∈ [pass .normalizeModes, pass .updateLabels],
      stage.Still (· = knowing cpu program t) := by
  refine List.forall_mem_cons.mpr ⟨?_, List.forall_mem_singleton.mpr (still_updateLabels hp ht)⟩
  exact still_of_plain hp (fun _ => Workspace.runPass_of_visit rfl clean_knowing)
    (fun _ _ => rfl) fun _ _ _ _ _ hst => Pass.normalizeModes_plain hst

/-- Constants are bound behind discovery. -/
theorem run_discovery : ∃ t', t'.Binds (constants program.leaves) ∧
    ((fixpoint "label initialization" [pass .initLabels]).run (knowing cpu program t) .fresh).1 =
      knowing cpu program t' := by
  have hempty : ({} : Discovery).nextRound.Notes program.leaves := fun _ _ _ _ => .inl rfl
  obtain ⟨t', changed, d', hfirst, hnotes, hbound, -⟩ := Workspace.sweep_initLabels hp t hempty
  -- The second round finds all constants bound, so it is the last one.
  obtain ⟨t'', changed', d'', hsecond, -, -, hsame⟩ :=
    Workspace.sweep_initLabels hp t' (d := d'.nextRound) hnotes
  obtain ⟨rfl, rfl⟩ := hsame hbound
  have hround (t : Table String Value) (d : Discovery) :
      runAll [pass .initLabels] (knowing cpu program t) [.pass d] =
        (((knowing cpu program t).sweep d.nextRound Pass.initLabels id).1,
          ((knowing cpu program t).sweep d.nextRound Pass.initLabels id).2.1,
          [.pass ((knowing cpu program t).sweep d.nextRound Pass.initLabels id).2.2]) := by
    simp [runAll, run, Workspace.runPass_initLabels clean_knowing, Memory.discovery]
  refine ⟨t'', hbound, ?_⟩
  have hstart : runAll [pass .initLabels] (knowing cpu program t) [] =
      (knowing cpu program t'', changed, [.pass d']) := by
    have hfresh := hround t {}
    rw [hfirst] at hfresh
    exact hfresh
  rw [run_fixpoint]
  show (Workspace.iterate _ _ (98 + 2) false _ []).1 = _
  rw [Workspace.iterate_of_settled clean_knowing]
  · rw [hstart]
  · rw [hstart]
    exact clean_knowing
  · rw [hstart, hround, hsecond]

/-- Constants have their values behind the first update. -/
theorem run_placement (m : Memory) : ∃ t', t'.Settles σ (constants program.leaves) ∧
    (placement.run (knowing cpu program t) m).1 = knowing cpu program t' := by
  obtain ⟨t', changed, hfirst, hsettled, -⟩ := Workspace.sweep_updateLabels hp t
  -- The second round finds the values as they are, so it is the last one.
  have hstill := still_updateLabels hp hsettled
  have hround (ms : List Memory) : ((runAll [pass .updateLabels] (knowing cpu program t) ms).1) =
      knowing cpu program t' := by
    rw [runAll_single.1, run_pass, Workspace.runPass_of_visit rfl clean_knowing, hfirst]
  have hmember : ∀ stage ∈ [pass .updateLabels], stage.Still (· = knowing cpu program t') :=
    fun stage hstage => List.mem_singleton.mp hstage ▸ hstill
  obtain ⟨hkept, hquiet⟩ := Still.runAll hmember (knowing cpu program t')
    (runAll [pass .updateLabels] (knowing cpu program t) m.members).2.2 rfl
  refine ⟨t', hsettled, ?_⟩
  rw [placement, run_fixpoint]
  show (Workspace.iterate _ _ (98 + 2) false _ _).1 = _
  rw [Workspace.iterate_of_settled clean_knowing]
  · exact hround _
  · rw [hround]
    exact clean_knowing
  · rw [hround, ← hquiet]
    exact Prod.ext hkept rfl

theorem run_sizing (m : Memory) : ∃ t', t'.Settles σ (constants program.leaves) ∧
    (sizing.run (knowing cpu program t) m).1 = knowing cpu program t' := by
  obtain ⟨t', hsettled, hplaced⟩ := run_placement (t := t) hp (m.members.headD .fresh)
  have hcollapse : (pass .collapse).Still (· = knowing cpu program t') :=
    still_of_follow hp rfl fun _ _ _ hst => Pass.collapse_plain hst
  exact ⟨t', hsettled, Still.run_pair clean_knowing hplaced hcollapse⟩

/-- Places are found in one round: there is no branch to extend. -/
theorem run_selection (extend : Bool) (m : Memory) :
    ∃ t', t'.Settles σ (constants program.leaves) ∧
      ((selection extend).run (knowing cpu program t) m).1 = knowing cpu program t' := by
  cases extend with
  | false => exact run_sizing hp m
  | true =>
    obtain ⟨t', hsettled, hsized⟩ := run_sizing (t := t) hp (m.members.headD .fresh)
    have hextend : (pass .extendBranches).Still (· = knowing cpu program t') :=
      still_of_follow hp rfl fun _ _ _ hst => Pass.extendBranches_plain hst
    exact ⟨t', hsettled, Still.run_pair clean_knowing hsized hextend⟩

end Plain

end Stage

/-- **The stages give the constants of a plain program their values** and do nothing else. -/
theorem Assembly.runStages_plain {options : Options} {program : Program} {σ : String → Value}
    (hp : program.Plain options.cpu σ) :
    ∃ t, t.Settles σ (constants program.leaves) ∧
      runStages (Stage.pipeline options.branchExtend) (start options program {}) =
        Workspace.knowing options.cpu program t := by
  obtain ⟨t, hbound, hdiscovered⟩ := Stage.run_discovery (t := {}) hp
  obtain ⟨t', hsettled, hselected⟩ := Stage.run_selection (t := t) hp options.branchExtend .fresh
  -- Only discovery and selection do something; the stages before and behind them stand still.
  have hstart : start options program {} = Workspace.knowing options.cpu program {} := rfl
  have hexpanded := Stage.Still.runStages (Stage.still_expansion hp) hstart
  have hchecked := Stage.Still.runStages (Stage.still_checks hp hbound) rfl
  have hfinished := Stage.Still.runStages (Stage.still_finish hp hsettled) rfl
  have hpipeline : Stage.pipeline options.branchExtend =
      [.pass .defineMacros, .fixpoint "macro expansion" [.pass .expandMacros]] ++
        .fixpoint "label initialization" [.pass .initLabels] ::
          ([.pass .checkCircularity, .pass .checkExpressions, .pass .easyModes] ++
            Stage.selection options.branchExtend :: [.pass .normalizeModes, .pass .updateLabels]) :=
    rfl
  refine ⟨t', hsettled, ?_⟩
  simp only [runStages] at hexpanded hchecked hfinished
  rw [hpipeline, runStages, List.foldl_append, hexpanded, List.foldl_cons, Stage.fst_go,
    hdiscovered, List.foldl_append, hchecked, List.foldl_cons, Stage.fst_go, hselected, hfinished]

end Assembler6502
