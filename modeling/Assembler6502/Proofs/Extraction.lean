import Assembler6502.Proofs.InternalFaults

/-!
# Taking definitions out of a program

The pass that takes definitions out of a program knows no more than the macro table and whether a
definition was met inside another one. But if it finds no fault, then the program has a simple form:
it is made of statements outside of all definitions, and of definitions that stand behind each
other, each from its beginning to its end, with no name defined twice. The pass leaves the
statements outside where they are, puts blanks in the place of the definitions, and enters exactly
these definitions into the table. A program of any other form is reported; one of this form is not,
as long as the scopes outside of definitions fit together.

## Main definitions

* `MacroBlock`: a definition, from its beginning to its end
* `Stretch`: a statement outside of all definitions, or a definition
* `Stretch.leaves`, `Stretch.rest`: the statements before the pass and behind it
* `MacroTable.Records`: what a table says of the statements so far
* `ScopesFit`: every scope that is closed was open, and all are closed in the end

## Main results

* `Pass.exists_stretches`: a program in which no fault is found is made of stretches
* `Pass.run_stretches`: what the pass makes of stretches
* `Workspace.extraction_partitions`: the form of a program, and what the pass leaves of it
-/

namespace Assembler6502

/-! ## Stretches -/

/-- The beginning of a definition, up to a point inside of its body. -/
structure OpenBlock where
  id : Nat
  location : Location
  name : String
  body : List (Nat × Statement)
  unmarked : ∀ l ∈ body, l.2.item.Unmarked

/-- A definition, from its beginning to its end. -/
structure MacroBlock extends OpenBlock where
  endId : Nat
  endLocation : Location

/-- The statements as parts of a macro. -/
def OpenBlock.parts (b : OpenBlock) : List Fragment :=
  b.body.map fun l => .statement l.2

def OpenBlock.leaves (b : OpenBlock) : List (Nat × Statement) :=
  (b.id, ⟨b.location, .macroBegin b.name⟩) :: b.body

/-- One more statement of the body. -/
def OpenBlock.add (b : OpenBlock) (l : Nat × Statement) (h : l.2.item.Unmarked) : OpenBlock where
  __ := b
  body := b.body ++ [l]
  unmarked := by
    intro k hk
    rcases List.mem_append.mp hk with hk | hk
    · exact b.unmarked k hk
    · rwa [List.mem_singleton.mp hk]

namespace MacroBlock

def leaves (b : MacroBlock) : List (Nat × Statement) :=
  b.toOpenBlock.leaves ++ [(b.endId, ⟨b.endLocation, .macroEnd⟩)]

/-- The macro that is defined. -/
def toMacro (b : MacroBlock) : Macro :=
  ⟨b.name, b.parts⟩

end MacroBlock

/-- A statement outside of all definitions, or a definition. -/
inductive Stretch where
  | outside (leaf : Nat × Statement) (unmarked : leaf.2.item.Unmarked)
  | block (block : MacroBlock)

/-- The same statement without what it says. -/
def blanked (l : Nat × Statement) : Nat × Statement :=
  (l.1, { l.2 with item := .blank })

namespace Stretch

/-- The statements of a stretch. -/
def leaves : Stretch → List (Nat × Statement)
  | outside leaf _ => [leaf]
  | block b => b.leaves

/-- What is left of a stretch when definitions are taken out. -/
def rest : Stretch → List (Nat × Statement)
  | outside leaf _ => [leaf]
  | block b => b.leaves.map blanked

def block? : Stretch → Option MacroBlock
  | outside _ _ => none
  | block b => some b

def outside? : Stretch → Option (Nat × Statement)
  | outside leaf _ => some leaf
  | block _ => none

end Stretch

/-- The definitions among some stretches. -/
def blocks (ss : List Stretch) : List MacroBlock :=
  ss.filterMap Stretch.block?

/-- The names that some stretches define. -/
def blockNames (ss : List Stretch) : List String :=
  (blocks ss).map (·.name)

/-- The statements outside of all definitions. -/
def outsides (ss : List Stretch) : List (Nat × Statement) :=
  ss.filterMap Stretch.outside?

/-- Every scope that is closed was open, and all are closed in the end. -/
def ScopesFit (leaves : List (Nat × Statement)) : Prop :=
  (∀ x ∈ ScopeState.along leaves, x.2.2.item = .scopeEnd → x.1.inner ≠ []) ∧
    (ScopeState.behind leaves).inner = []

/-! ## Tables -/

/-- What a macro table says of the statements so far: which names are taken, and what of a
definition is open. -/
structure MacroTable.Records (t : MacroTable) (ss : List Stretch) (o : Option OpenBlock) :
    Prop where
  nodup : (blockNames ss ++ o.toList.map (·.name)).Nodup
  taken : ∀ name, t.macros.contains name = true ↔ name ∈ blockNames ss
  current : t.current = o.map fun b => { name := b.name, body := b.parts, duplicate := false }

namespace MacroTable.Records

variable {t : MacroTable} {ss : List Stretch} {b : OpenBlock}

theorem outside (h : Records t ss none) (l : Nat × Statement) (hl : l.2.item.Unmarked) :
    Records t (ss ++ [.outside l hl]) none := by
  have hnames : blockNames (ss ++ [.outside l hl]) = blockNames ss := by
    simp [blockNames, blocks, Stretch.block?]
  constructor
  · rw [hnames]
    exact h.nodup
  · rw [hnames]
    exact h.taken
  · exact h.current

theorem begin (h : Records t ss none) (id : Nat) (location : Location) {name : String}
    (hfresh : t.macros.contains name = false) :
    Records { t with current := some { name, duplicate := false } } ss
      (some ⟨id, location, name, [], List.forall_mem_nil _⟩) := by
  have hname : name ∉ blockNames ss := fun hmem => by simp [(h.taken name).mpr hmem] at hfresh
  refine ⟨?_, h.taken, rfl⟩
  have hnodup : (blockNames ss).Nodup := by simpa using h.nodup
  rw [List.nodup_append]
  refine ⟨hnodup, by simp, ?_⟩
  rintro a ha b hb rfl
  obtain rfl : a = name := by simpa using hb
  exact hname ha

theorem inside (h : Records t ss (some b)) (l : Nat × Statement) (hl : l.2.item.Unmarked) :
    Records { t with current := some ⟨b.name, b.parts ++ [.statement l.2], false⟩ } ss
      (some (b.add l hl)) := by
  refine ⟨h.nodup, h.taken, ?_⟩
  simp [OpenBlock.add, OpenBlock.parts]

theorem close (h : Records t ss (some b)) (id : Nat) (location : Location) :
    Records ⟨t.macros.insert b.name ⟨b.name, b.parts⟩, none⟩
      (ss ++ [.block ⟨b, id, location⟩]) none := by
  have hnames : blockNames (ss ++ [.block ⟨b, id, location⟩]) = blockNames ss ++ [b.name] := by
    simp [blockNames, blocks, Stretch.block?]
  constructor
  · rw [hnames]
    simpa using h.nodup
  · intro name
    rw [hnames, List.mem_append, ← h.taken name, List.mem_singleton]
    by_cases hname : b.name = name
    · simp [Table.contains, hname]
    · simp [Table.contains, hname, Ne.symm hname]
  · rfl

end MacroTable.Records

/-! ## One statement -/

/-- A pass with another macro table. -/
def Sweep.withTable {μ : Type} (s : Sweep μ) (t : MacroTable) : Sweep μ :=
  { s with context.macros := t }

namespace Pass

variable {s : Sweep Bool} {id : Nat} {location : Location} {name : String} {st : Statement}
  {t : MacroTable} {m : OpenMacro}

theorem defineMacros_begin (ht : s.context.macros = t) (hcurrent : t.current = none)
    (hfresh : t.macros.contains name = false) :
    defineMacros s id ⟨location, .macroBegin name⟩ =
      (s.withTable { t with current := some { name, duplicate := false } },
        .leaf id ⟨location, .blank⟩) := by
  subst ht
  simp [defineMacros, MacroTable.isDefining, withMacros, MacroTable.define, hcurrent, hfresh,
    Sweep.withTable]

theorem defineMacros_end (ht : s.context.macros = t) (hcurrent : t.current = some m)
    (hfresh : m.duplicate = false) :
    defineMacros s id ⟨location, .macroEnd⟩ =
      (s.withTable ⟨t.macros.insert m.name ⟨m.name, m.body⟩, none⟩,
        .leaf id ⟨location, .blank⟩) := by
  subst ht
  simp [defineMacros, MacroTable.isDefining, withMacros, MacroTable.endDefine, hcurrent, hfresh,
    Sweep.withTable]

theorem defineMacros_inside (hitem : st.item.Unmarked) (ht : s.context.macros = t)
    (hcurrent : t.current = some m) :
    defineMacros s id st =
      (s.withTable { t with current := some { m with body := m.body ++ [.statement st] } },
        .leaf id { st with item := .blank }) := by
  subst ht
  obtain ⟨location, item⟩ := st
  cases item with
  | macroBegin | macroEnd => cases hitem
  | _ =>
    simp [defineMacros, MacroTable.isDefining, withMacros, MacroTable.capture, hcurrent,
      Sweep.withTable]

theorem defineMacros_outside (hitem : st.item.Unmarked)
    (hcurrent : s.context.macros.current = none) :
    defineMacros s id st = (s.mapContext (·.followStructure st), .leaf id st) := by
  obtain ⟨location, item⟩ := st
  cases item with
  | macroBegin | macroEnd => cases hitem
  | _ => simp [defineMacros, MacroTable.isDefining, hcurrent]

/-! ## Programs in which no fault is found -/

/-- A statement at which no fault is found goes on with the open definition, or with the statements
outside. -/
theorem exists_records {ss : List Stretch} {o : Option OpenBlock} {l : Nat × Statement}
    (h : s.context.macros.Records ss o) (hmemory : s.memory = false)
    (hclean : (Visit.step defineMacros s l).context.hasErrors = false) :
    ∃ ss' o', (Visit.step defineMacros s l).context.macros.Records ss' o' ∧
      ss'.flatMap Stretch.leaves ++ o'.toList.flatMap OpenBlock.leaves =
        ss.flatMap Stretch.leaves ++ o.toList.flatMap OpenBlock.leaves ++ [l] := by
  have hcurrent := h.current
  obtain ⟨id, st⟩ := l
  by_cases hitem : st.item.Unmarked
  · cases o with
    | none =>
      rw [Visit.step, defineMacros_outside hitem hcurrent, Sweep.context_mapContext,
        Context.macros_followStructure]
      exact ⟨_, none, h.outside (id, st) hitem, by simp [Stretch.leaves]⟩
    | some b =>
      rw [Visit.step, defineMacros_inside hitem rfl hcurrent]
      exact ⟨ss, _, h.inside (id, st) hitem, by simp [OpenBlock.leaves, OpenBlock.add]⟩
  · obtain ⟨location, item⟩ := st
    cases item with
    | macroBegin name =>
      cases o with
      | none =>
        rw [Option.map_none] at hcurrent
        cases hfresh : s.context.macros.macros.contains name with
        | true =>
          -- A name that is taken is a fault.
          simp [Visit.step, defineMacros, MacroTable.isDefining, withMacros, MacroTable.define,
            hcurrent, hfresh] at hclean
        | false =>
          rw [Visit.step, defineMacros_begin rfl hcurrent hfresh]
          exact ⟨ss, _, h.begin id location hfresh, by simp [OpenBlock.leaves]⟩
      | some b =>
        rw [Option.map_some] at hcurrent
        simp [Visit.step, defineMacros, MacroTable.isDefining, hcurrent] at hclean
    | macroEnd =>
      cases o with
      | none =>
        rw [Option.map_none] at hcurrent
        simp [Visit.step, defineMacros, MacroTable.isDefining, hcurrent, hmemory] at hclean
      | some b =>
        rw [Visit.step, defineMacros_end rfl hcurrent rfl]
        exact ⟨_, none, h.close id location, by simp [Stretch.leaves, MacroBlock.leaves]⟩
    | _ => exact absurd trivial hitem

/-- **A program in which no fault is found** and no definition is left open is made of stretches,
and no name is defined twice. -/
theorem exists_stretches {leaves : List (Nat × Statement)} (hs : s.context.macros = {})
    (hmemory : s.memory = false)
    (hclean : (leaves.foldl (Visit.step defineMacros) s).context.hasErrors = false)
    (hclosed : (leaves.foldl (Visit.step defineMacros) s).context.macros.current = none) :
    ∃ ss : List Stretch, leaves = ss.flatMap Stretch.leaves ∧ (blockNames ss).Nodup := by
  -- What the table records of the statements so far, as long as there is no fault.
  have hrecords : ∃ ss o,
      (leaves.foldl (Visit.step defineMacros) s).context.macros.Records ss o ∧
        leaves = ss.flatMap Stretch.leaves ++ o.toList.flatMap OpenBlock.leaves ∧
        (leaves.foldl (Visit.step defineMacros) s).memory = false := by
    clear hclosed
    induction leaves using List.reverseRecOn with
    | nil =>
      refine ⟨[], none, ⟨List.nodup_nil, ?_, ?_⟩, rfl, hmemory⟩
      · intro name
        rw [List.foldl_nil, hs]
        simp [Table.contains, blockNames, blocks]
      · rw [List.foldl_nil, hs]
        rfl
    | append_singleton leaves l ih =>
      rw [List.foldl_append, List.foldl_cons, List.foldl_nil] at hclean ⊢
      obtain ⟨ss, o, hrecords, hleaves, hmemory⟩ := ih (clean_of_defineMacros hclean)
      obtain ⟨ss', o', hrecords', hleaves'⟩ := exists_records hrecords hmemory hclean
      refine ⟨ss', o', hrecords', by rw [hleaves', ← hleaves], ?_⟩
      rcases memory_defineMacros (leaves.foldl (Visit.step defineMacros) s) l with hsame | hfault
      · rw [hsame, hmemory]
      · rw [hfault] at hclean
        cases hclean
  obtain ⟨ss, o, hrecords, hleaves, -⟩ := hrecords
  rw [hrecords.current, Option.map_eq_none_iff] at hclosed
  subst hclosed
  exact ⟨ss, by simpa using hleaves, by simpa using hrecords.nodup⟩

/-! ## Programs that are made of stretches -/

end Pass

/-- The state of a pass behind some statements, and the statements that take their place. -/
def Visit.run {μ : Type} (visit : Visit μ) (s : Sweep μ) (leaves : List (Nat × Statement)) :
    Sweep μ × List (Nat × Statement) :=
  (leaves.foldl visit.step s,
    (reached visit.step s leaves).flatMap fun x => (visit x.1 x.2.1 x.2.2).2.leaves)

namespace Visit

variable {μ : Type} {visit : Visit μ} {s s' : Sweep μ}

theorem run_append (first second : List (Nat × Statement)) :
    visit.run s (first ++ second) =
      ((visit.run (visit.run s first).1 second).1,
        (visit.run s first).2 ++ (visit.run (visit.run s first).1 second).2) := by
  simp [run, reached_append]

theorem run_cons {l k : Nat × Statement} (h : visit s l.1 l.2 = (s', .leaf k.1 k.2))
    (rest : List (Nat × Statement)) :
    visit.run s (l :: rest) = ((visit.run s' rest).1, k :: (visit.run s' rest).2) := by
  simp [run, step, h, Node.leaves]

end Visit

/-- What the pass does with a stretch. -/
def Stretch.act (c : Context) : Stretch → Context
  | outside leaf _ => c.followStructure leaf.2
  | block b => { c with macros.macros := c.macros.macros.insert b.name b.toMacro }

/-- No definition is open, and the names that some stretches define are not taken, nor is one of
them defined twice. -/
structure MacroTable.Admits (t : MacroTable) (ss : List Stretch) : Prop where
  closed : t.current = none
  fresh : ∀ name ∈ blockNames ss, t.macros.contains name = false
  nodup : (blockNames ss).Nodup

theorem MacroTable.Admits.act {c : Context} {x : Stretch} {ss : List Stretch}
    (h : c.macros.Admits (x :: ss)) : (x.act c).macros.Admits ss := by
  cases x with
  | outside l hl =>
    rw [Stretch.act, Context.macros_followStructure]
    exact ⟨h.closed, h.fresh, h.nodup⟩
  | block b =>
    obtain ⟨hb, hnodup⟩ : b.name ∉ blockNames ss ∧ (blockNames ss).Nodup :=
      List.nodup_cons.mp h.nodup
    refine ⟨h.closed, fun name hname => ?_, hnodup⟩
    -- The other names are not taken by this definition either.
    have hother : b.name ≠ name := fun heq => hb (heq ▸ hname)
    have hbefore := h.fresh name (List.mem_cons_of_mem _ hname)
    simpa [Stretch.act, Table.contains, hother] using hbefore

/-- Following scopes is no fault if a scope that is closed was open. -/
theorem Context.hasErrors_followStructure {c : Context} {st : Statement} :
    (c.followStructure st).hasErrors = false ↔
      c.hasErrors = false ∧ (st.item = .scopeEnd → c.env.inner ≠ []) := by
  obtain ⟨location, item⟩ := st
  cases item with
  | scopeEnd =>
    cases hinner : c.env.inner with
    | nil => simp [followStructure, followStructure?, Environment.exitScope?, hinner]
    | cons scope rest =>
      simp only [followStructure, followStructure?, Environment.exitScope?, hinner]
      exact ⟨fun h => ⟨h, by simp⟩, fun h => h.1⟩
  | _ => exact ⟨fun h => ⟨h, fun hitem => by cases hitem⟩, fun h => h.1⟩

namespace Pass

variable {s : Sweep Bool} {t : MacroTable} {m : OpenMacro}

/-- The statements of a body are captured in order. -/
theorem run_body {body : List (Nat × Statement)} (hbody : ∀ l ∈ body, l.2.item.Unmarked)
    (ht : s.context.macros = t) (hcurrent : t.current = some m) :
    Visit.run defineMacros s body =
      (s.withTable { t with
          current := some { m with body := m.body ++ body.map fun l => .statement l.2 } },
        body.map blanked) := by
  -- The open definition grows by one statement, and a blank is left in its place.
  induction body generalizing s t m with
  | nil =>
    subst ht
    simp [Visit.run, Sweep.withTable, ← hcurrent]
  | cons l rest ih =>
    obtain ⟨hl, hrest⟩ := List.forall_mem_cons.mp hbody
    have hvisit : defineMacros s l.1 l.2 =
        (s.withTable { t with current := some { m with body := m.body ++ [.statement l.2] } },
          .leaf (blanked l).1 (blanked l).2) := by
      refine defineMacros_inside ?_ ht hcurrent
      exact hl
    rw [Visit.run_cons hvisit, ih hrest rfl rfl]
    simp [Sweep.withTable]

/-- A stretch is left alone, or enters the table. -/
theorem run_stretch {x : Stretch} {ss : List Stretch} (h : s.context.macros.Admits (x :: ss)) :
    Visit.run defineMacros s x.leaves = ({ s with context := x.act s.context }, x.rest) := by
  cases x with
  | outside l hl => exact Visit.run_cons (defineMacros_outside hl h.closed) []
  | block b =>
    have hfresh := h.fresh b.name List.mem_cons_self
    rw [Stretch.leaves, MacroBlock.leaves, OpenBlock.leaves, List.cons_append,
      Visit.run_cons (k := (b.id, ⟨b.location, .blank⟩)) (defineMacros_begin rfl h.closed hfresh),
      Visit.run_append, run_body b.unmarked rfl rfl,
      Visit.run_cons (k := (b.endId, ⟨b.endLocation, .blank⟩)) (defineMacros_end rfl rfl rfl)]
    simp [Visit.run, Sweep.withTable, Stretch.act, Stretch.rest, blanked, h.closed,
      MacroBlock.leaves, OpenBlock.leaves, MacroBlock.toMacro, OpenBlock.parts]

/-- **What the pass makes of stretches** that define no name twice, and none that is taken. -/
theorem run_stretches {ss : List Stretch} (h : s.context.macros.Admits ss) :
    Visit.run defineMacros s (ss.flatMap Stretch.leaves) =
      ({ s with context := ss.foldl Stretch.act s.context }, ss.flatMap Stretch.rest) := by
  induction ss generalizing s with
  | nil => rfl
  | cons x ss ih =>
    rw [List.flatMap_cons, Visit.run_append, run_stretch h, ih h.act]
    rfl

end Pass

namespace Stretch

variable {c : Context} {x : Stretch} {ss : List Stretch}

/-- The macros behind stretches are those from before and the ones that the stretches define. -/
theorem get?_act (h : c.macros.Admits ss) (name : String) (m : Macro) :
    (ss.foldl act c).macros.get? name = some m ↔
      c.macros.get? name = some m ∨ ∃ b ∈ blocks ss, b.name = name ∧ m = b.toMacro := by
  induction ss generalizing c with
  | nil => simp [blocks]
  | cons x ss ih =>
    rw [List.foldl_cons, ih h.act]
    cases x with
    | outside l hl =>
      rw [act, Context.macros_followStructure]
      rfl
    | block b =>
      -- The name of a definition is new, so no macro from before is hidden.
      have hfresh : c.macros.macros.get? b.name = none := by
        simpa [Table.contains] using h.fresh b.name List.mem_cons_self
      have hblocks : blocks (.block b :: ss) = b :: blocks ss := rfl
      simp only [act, MacroTable.get?, Table.get?_insert, hblocks, List.mem_cons, exists_eq_or_imp]
      by_cases hname : b.name = name
      · subst hname
        simp [hfresh, eq_comm]
      · simp [hname]

theorem current_act (h : c.macros.Admits ss) : (ss.foldl act c).macros.current = none := by
  induction ss generalizing c with
  | nil => exact h.closed
  | cons x ss ih => exact ih h.act

theorem scopeState_followStructure (c : Context) (st : Statement) :
    (c.followStructure st).env.scopeState = c.env.scopeState.follow st.item := by
  have hpasses : Context.Passes False (fun _ => True) st.item c (c.followStructure st) :=
    Context.passes_followStructure trivial c st
  exact hpasses.scopes

/-- The scopes behind stretches are those behind the statements outside. -/
theorem scopeState_act (ss : List Stretch) (c : Context) :
    (ss.foldl act c).env.scopeState =
      (outsides ss).foldl (fun σ l => σ.follow l.2.item) c.env.scopeState := by
  induction ss generalizing c with
  | nil => rfl
  | cons x ss ih =>
    rw [List.foldl_cons, ih]
    cases x with
    | outside l hl =>
      rw [act, scopeState_followStructure]
      rfl
    | block b => rfl

/-- Stretches are no fault if every scope that is closed outside was open. -/
theorem hasErrors_act (hc : c.hasErrors = false)
    (h : ∀ x ∈ reached (fun σ l => σ.follow l.2.item) c.env.scopeState (outsides ss),
      x.2.2.item = .scopeEnd → x.1.inner ≠ []) : (ss.foldl act c).hasErrors = false := by
  induction ss generalizing c with
  | nil => exact hc
  | cons x ss ih =>
    rw [List.foldl_cons]
    cases x with
    | outside l hl =>
      have houtsides : outsides (.outside l hl :: ss) = l :: outsides ss := rfl
      rw [houtsides, reached_cons] at h
      obtain ⟨hfirst, hrest⟩ := List.forall_mem_cons.mp h
      apply ih
      · exact Context.hasErrors_followStructure.mpr ⟨hc, hfirst⟩
      · rwa [act, scopeState_followStructure]
    | block b => exact ih hc h

end Stretch

/-! ## The pass -/

namespace Workspace

variable {w : Workspace}

/-- The pass finds no fault exactly if it finds none at a statement, no definition is left open, and
all scopes are closed. -/
theorem clean_defineMacros (hw : w.Clean) (d : Discovery) :
    (w.runPass .defineMacros d).1.Clean ↔
      (w.closing false Pass.defineMacros).context.hasErrors = false ∧
        (w.closing false Pass.defineMacros).context.macros.current = none ∧
        (w.closing false Pass.defineMacros).context.env.inner = [] := by
  rw [runPass_defineMacros hw, Clean, sweep_eq, Context.hasErrors_restart]
  cases hcurrent : (w.closing false Pass.defineMacros).context.macros.current with
  | none => simp [Pass.closeDefinition, MacroTable.abandon, hcurrent]
  | some m => simp [Pass.closeDefinition, MacroTable.abandon, hcurrent]

theorem macros_defineMacros
    (h : (w.closing false Pass.defineMacros).context.macros.current = none) :
    (w.sweep false Pass.defineMacros Pass.closeDefinition).1.context.macros =
      (w.closing false Pass.defineMacros).context.macros := by
  rw [sweep_eq, Context.macros_restart]
  simp [Pass.closeDefinition, MacroTable.abandon, h]

/-- A program that is made of stretches is walked stretch by stretch. -/
theorem closing_stretches {ss : List Stretch} (hempty : w.context.macros = {})
    (hleaves : w.program.leaves = ss.flatMap Stretch.leaves) (hnodup : (blockNames ss).Nodup) :
    (w.opening false).context.macros.Admits ss ∧
      (w.closing false Pass.defineMacros).context =
        ss.foldl Stretch.act (w.opening false).context ∧
      (w.sweep false Pass.defineMacros Pass.closeDefinition).1.program.leaves =
        ss.flatMap Stretch.rest := by
  have hadmits : (w.opening false).context.macros.Admits ss := by
    rw [opening, Context.macros_restart, hempty]
    exact ⟨rfl, fun _ _ => rfl, hnodup⟩
  have hrun := Pass.run_stretches hadmits
  rw [← hleaves] at hrun
  refine ⟨hadmits, congrArg (·.1.context) hrun, ?_⟩
  rw [leaves_sweep]
  exact congrArg Prod.snd hrun

/-- **Taking definitions out of a program** partitions it. If the macro table is empty before the
pass and there is no fault behind it, then the program is made of statements outside of all
definitions and of definitions, each from its beginning to its end and with nothing in its body that
begins or ends another one, and no name is defined twice. The pass leaves the statements outside
where they are, makes blanks of the definitions, and enters exactly these definitions into the
table, with their bodies as they were. A program of any other form is reported. A program of this
form is not reported, if the pass begins without a fault and the scopes outside of definitions fit
together. -/
theorem extraction_partitions (w : Workspace) (hempty : w.context.macros = {}) :
    let w' := ((Stage.pass .defineMacros).go w).1
    (w'.Clean → ∃ ss : List Stretch,
        w.program.leaves = ss.flatMap Stretch.leaves ∧ (blockNames ss).Nodup ∧
          w'.program.leaves = ss.flatMap Stretch.rest ∧
          (∀ name m, w'.context.macros.get? name = some m ↔
            ∃ b ∈ blocks ss, b.name = name ∧ m = ⟨name, b.body.map fun l => .statement l.2⟩) ∧
          w'.context.macros.isDefining = false) ∧
      ((¬ ∃ ss : List Stretch,
          w.program.leaves = ss.flatMap Stretch.leaves ∧ (blockNames ss).Nodup) →
        w'.context.hasErrors = true) ∧
      (w.Clean → w.context.env.inner = [] → ∀ ss : List Stretch,
        w.program.leaves = ss.flatMap Stretch.leaves → (blockNames ss).Nodup →
          ScopesFit (outsides ss) → w'.Clean) := by
  intro w'
  have hw' : w' = (w.runPass .defineMacros {}).1 := by
    show ((Stage.pass .defineMacros).run w .fresh).1 = _
    exact Stage.run_pass
  have hform (hclean : w'.Clean) : ∃ ss : List Stretch,
      w.program.leaves = ss.flatMap Stretch.leaves ∧ (blockNames ss).Nodup := by
    rw [hw'] at hclean
    obtain ⟨herrors, hclosed, -⟩ := (clean_defineMacros (clean_of_runPass hclean) _).mp hclean
    have hopening : (w.opening false).context.macros = {} := by
      rw [opening, Context.macros_restart, hempty]
    exact Pass.exists_stretches hopening rfl herrors hclosed
  refine ⟨fun hclean => ?_, fun hnone => ?_, fun hclean hinner ss hleaves hnodup hscopes => ?_⟩
  · obtain ⟨ss, hleaves, hnodup⟩ := hform hclean
    obtain ⟨hadmits, hcontext, hrest⟩ := closing_stretches hempty hleaves hnodup
    have hclosed := Stretch.current_act hadmits
    rw [← hcontext] at hclosed
    rw [hw', runPass_defineMacros (clean_of_runPass (hw' ▸ hclean)), macros_defineMacros hclosed]
    refine ⟨ss, hleaves, hnodup, hrest, fun name m => ?_, by simp [MacroTable.isDefining, hclosed]⟩
    rw [hcontext, Stretch.get?_act hadmits, opening, Context.macros_restart, hempty]
    constructor
    · rintro (⟨⟨⟩⟩ | ⟨b, hb, rfl, rfl⟩)
      exact ⟨b, hb, rfl, rfl⟩
    · rintro ⟨b, hb, rfl, rfl⟩
      exact .inr ⟨b, hb, rfl, rfl⟩
  · by_contra hclean
    exact hnone (hform (Bool.eq_false_iff.mpr hclean))
  · obtain ⟨hadmits, hcontext, -⟩ := closing_stretches hempty hleaves hnodup
    rw [hw', clean_defineMacros hclean, hcontext]
    have hopening : (w.opening false).context.hasErrors = false :=
      Context.hasErrors_restart.mpr ⟨hclean, hinner⟩
    have hscopeState : (w.opening false).context.env.scopeState = {} := by
      rw [env_opening]
      rfl
    refine ⟨Stretch.hasErrors_act hopening ?_, Stretch.current_act hadmits, ?_⟩
    · rw [hscopeState]
      exact hscopes.1
    · have hend := Stretch.scopeState_act ss (w.opening false).context
      rw [hscopeState] at hend
      exact (congrArg ScopeState.inner hend).trans hscopes.2

/-- Two definitions with a statement between them, the first with a scope that stays open. -/
def twoMacros : Program :=
  ⟨[.sequence 4 .topLevel
      [.leaf 1 ⟨.topLevel, .macroBegin "first"⟩,
        .leaf 2 ⟨.topLevel, .scopeBegin⟩,
        .leaf 3 ⟨.topLevel, .instruction (.implied .inx)⟩],
    .leaf 5 ⟨.topLevel, .macroEnd⟩,
    .leaf 6 ⟨.topLevel, .instruction (.implied .nop)⟩,
    .leaf 7 ⟨.topLevel, .macroBegin "second"⟩,
    .leaf 8 ⟨.topLevel, .macroEnd⟩], 9⟩

/-- The first definition begins inside of a sequence and ends behind it. -/
theorem extraction_partitions_twoMacros :
    let w : Workspace := ⟨twoMacros, { cpu := .mos6502 }⟩
    let w' := ((Stage.pass .defineMacros).go w).1
    w.context.macros = {} ∧ w'.Clean ∧ ∃ ss : List Stretch,
      twoMacros.leaves = ss.flatMap Stretch.leaves ∧ (blockNames ss).Nodup ∧
        w'.program.leaves = ss.flatMap Stretch.rest ∧
        ∀ name m, w'.context.macros.get? name = some m ↔
          ∃ b ∈ blocks ss, b.name = name ∧ m = ⟨name, b.body.map fun l => .statement l.2⟩ := by
  intro w w'
  have hclean : w'.Clean := by
    unfold Workspace.Clean
    decide +kernel
  obtain ⟨ss, hleaves, hnodup, hrest, hmacros, -⟩ := (extraction_partitions w rfl).1 hclean
  exact ⟨rfl, hclean, ss, hleaves, hnodup, hrest, hmacros⟩

end Workspace
end Assembler6502
