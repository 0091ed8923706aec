import Mathlib.Data.List.Forall2
import Assembler6502.Stage
import Assembler6502.Proofs.Walk

/-!
# Programs that are alike

Two programs are alike if their leaves hold the same items in the same order. How the leaves are
nested, which numbers they have and where they came from may differ; places are only compared by a
relation that the expansion of macros respects. Likeness goes along with everything that passes do
to their states: like contexts have the same environment, and the same faults and warnings in the
same order, at places that the relation relates. So a sweep over like programs ends in like programs
if its visits do alike what is alike.

## Main definitions

* `Location.Matching`: the relations between places that the expansion of macros respects
* `Statement.Like`, `Diagnostics.Like`, `MacroTable.Like`, `Context.Like`: what is alike, up to
  places
* `Node.Like`: nodes with like leaves, however they are nested and numbered
* `Sweep.Like`, `Workspace.Like`: like states of a pass, and like programs in like contexts
* `Visit.Respects`: a pass does alike what is alike

## Main results

* `Context.Like.follow`: like statements do the same to like contexts
* `Visit.Respects.sweep`: a sweep of a pass that respects likeness respects likeness
-/

namespace Assembler6502

variable {R : Location → Location → Prop}

/-! ## Likeness -/

/-- A relation between places relates the outermost place to itself, and expansions whose calls and
definitions it relates. -/
structure Location.Matching (R : Location → Location → Prop) : Prop where
  topLevel : R .topLevel .topLevel
  expansion : ∀ {call call' place place' : Location}, R call call' → R place place' →
    R (.expansion call place) (.expansion call' place')

/-- The same item at related places. -/
structure Statement.Like (R : Location → Location → Prop) (st st' : Statement) : Prop where
  location : R st.location st'.location
  item : st.item = st'.item

/-- The same fault or warning at related places. -/
structure Located.Like {α : Type} (R : Location → Location → Prop) (x x' : Located α) : Prop where
  location : R x.location x'.location
  value : x.value = x'.value

/-- The same faults and warnings in the same order, at related places. -/
structure Diagnostics.Like (R : Location → Location → Prop) (d d' : Diagnostics) : Prop where
  errors : List.Forall₂ (Located.Like R) d.errors d'.errors
  warnings : List.Forall₂ (Located.Like R) d.warnings d'.warnings

/-- Single statements that are alike. The bodies of macros are made of these. -/
inductive Fragment.Like (R : Location → Location → Prop) : Fragment → Fragment → Prop
  | statement {st st' : Statement} (h : st.Like R st') :
    Fragment.Like R (.statement st) (.statement st')

/-- Open definitions of one name with like bodies. -/
structure OpenMacro.Like (R : Location → Location → Prop) (m m' : OpenMacro) : Prop where
  name : m.name = m'.name
  body : List.Forall₂ (Fragment.Like R) m.body m'.body
  duplicate : m.duplicate = m'.duplicate

/-- The same names have macros, with like bodies, and the definitions that are open are alike. -/
structure MacroTable.Like (R : Location → Location → Prop) (t t' : MacroTable) : Prop where
  get? : ∀ name, Option.Rel (fun m m' => List.Forall₂ (Fragment.Like R) m.body m'.body)
    (t.get? name) (t'.get? name)
  current : Option.Rel (OpenMacro.Like R) t.current t'.current

/-- The same processor and the same environment, with like diagnostics and like macros. -/
structure Context.Like (R : Location → Location → Prop) (c c' : Context) : Prop where
  cpu : c.cpu = c'.cpu
  env : c.env = c'.env
  diagnostics : c.diagnostics.Like R c'.diagnostics
  macros : c.macros.Like R c'.macros

/-- Nodes with like leaves, however the leaves are nested and numbered. -/
def Node.Like (R : Location → Location → Prop) (n n' : Node) : Prop :=
  List.Forall₂ (fun l l' => l.2.Like R l'.2) n.leaves n'.leaves

/-- Like states of a pass, where `M` relates what the pass has in mind. -/
structure Sweep.Like {μ : Type} (R : Location → Location → Prop) (M : μ → μ → Prop)
    (s s' : Sweep μ) : Prop where
  context : s.context.Like R s'.context
  changed : s.changed = s'.changed
  memory : M s.memory s'.memory

/-- Programs with like leaves in like contexts. -/
structure Workspace.Like (R : Location → Location → Prop) (w w' : Workspace) : Prop where
  program : w.program.root.Like R w'.program.root
  context : w.context.Like R w'.context

theorem Statement.Like.exists_item {st st' : Statement} (h : st.Like R st') :
    ∃ location location' item, st = ⟨location, item⟩ ∧ st' = ⟨location', item⟩ ∧
      R location location' := by
  obtain ⟨location, item⟩ := st
  obtain ⟨location', item'⟩ := st'
  obtain rfl : item = item' := h.item
  exact ⟨location, location', item, rfl, rfl, h.location⟩

theorem Fragment.like_ofItems {location location' : Location} (hl : R location location')
    (items : List Item) :
    List.Forall₂ (Fragment.Like R) (items.map (.ofItem location))
      (items.map (.ofItem location')) := by
  induction items with
  | nil => exact .nil
  | cons item rest ih => exact .cons (.statement ⟨hl, rfl⟩) ih

/-! ## Diagnostics and macros -/

namespace Diagnostics.Like

variable {d d' : Diagnostics} {location location' : Location}

theorem error (h : d.Like R d') (hl : R location location') (fault : Fault) :
    (d.error location fault).Like R (d'.error location' fault) :=
  ⟨List.rel_append h.errors (.cons ⟨hl, rfl⟩ .nil), h.warnings⟩

theorem warn (h : d.Like R d') (hl : R location location') (warning : Warning) :
    (d.warn location warning).Like R (d'.warn location' warning) :=
  ⟨h.errors, List.rel_append h.warnings (.cons ⟨hl, rfl⟩ .nil)⟩

theorem hasErrors (h : d.Like R d') : d.hasErrors = d'.hasErrors := by
  have herrors := h.errors
  simp only [Diagnostics.hasErrors]
  generalize d.errors = es, d'.errors = es' at herrors
  cases herrors <;> rfl

end Diagnostics.Like

namespace MacroTable.Like

variable {t t' : MacroTable} {location location' : Location}

theorem isDefining (h : t.Like R t') : t.isDefining = t'.isDefining := by
  have hcurrent := h.current
  simp only [MacroTable.isDefining]
  generalize t.current = m, t'.current = m' at hcurrent
  cases hcurrent <;> rfl

theorem contains (h : t.Like R t') (name : String) :
    t.macros.contains name = t'.macros.contains name := by
  have hget := h.get? name
  show (t.get? name).isSome = (t'.get? name).isSome
  generalize t.get? name = m, t'.get? name = m' at hget
  cases hget <;> rfl

theorem define (h : t.Like R t') (name : String) :
    (t.define name).1.Like R (t'.define name).1 ∧ (t.define name).2 = (t'.define name).2 := by
  simp only [MacroTable.define, ← h.isDefining, ← h.contains name]
  cases t.isDefining with
  | true => exact ⟨h, rfl⟩
  | false => exact ⟨⟨h.get?, .some ⟨rfl, .nil, rfl⟩⟩, rfl⟩

theorem capture (h : t.Like R t') {st st' : Statement} (hst : st.Like R st') :
    (t.capture (.statement st)).1.Like R (t'.capture (.statement st')).1 ∧
      (t.capture (.statement st)).2 = (t'.capture (.statement st')).2 := by
  obtain ⟨location, location', item, rfl, rfl, hl⟩ := hst.exists_item
  have hcurrent := h.current
  cases item with
  | macroBegin name => exact ⟨h, rfl⟩
  | _ =>
    simp only [MacroTable.capture]
    generalize t.current = m, t'.current = m' at hcurrent
    cases hcurrent with
    | none => exact ⟨h, rfl⟩
    | some hm =>
      exact ⟨⟨h.get?, .some ⟨hm.name, List.rel_append hm.body (.cons (.statement ⟨hl, rfl⟩) .nil),
        hm.duplicate⟩⟩, rfl⟩

theorem endDefine (h : t.Like R t') :
    t.endDefine.1.Like R t'.endDefine.1 ∧ t.endDefine.2 = t'.endDefine.2 := by
  have hcurrent := h.current
  simp only [MacroTable.endDefine]
  generalize t.current = m, t'.current = m' at hcurrent
  cases hcurrent with
  | none => exact ⟨h, rfl⟩
  | @some m m' hm =>
    refine ⟨⟨fun name => ?_, .none⟩, rfl⟩
    dsimp only
    rw [← hm.duplicate]
    cases m.duplicate with
    | true => exact h.get? name
    | false =>
      simp only [MacroTable.get?, Bool.false_eq_true, if_false, Table.get?_insert, ← hm.name]
      split
      · exact .some hm.body
      · exact h.get? name

theorem abandon (h : t.Like R t') :
    t.abandon.1.Like R t'.abandon.1 ∧ t.abandon.2 = t'.abandon.2 := by
  have hcurrent := h.current
  simp only [MacroTable.abandon]
  generalize t.current = m, t'.current = m' at hcurrent
  cases hcurrent with
  | none => exact ⟨h, rfl⟩
  | some hm => exact ⟨⟨h.get?, .none⟩, rfl⟩

/-- A call of a name stands for like fragments, or is refused for the same reason. -/
theorem expand (hR : Location.Matching R) (h : t.Like R t') (hl : R location location')
    (name : String) (arguments : List Expr) :
    (∃ parts parts', t.expand location name arguments = .ok parts ∧
        t'.expand location' name arguments = .ok parts' ∧
        List.Forall₂ (Fragment.Like R) parts parts') ∨
      ∃ e, t.expand location name arguments = .error e ∧
        t'.expand location' name arguments = .error e := by
  have hget := h.get? name
  simp only [MacroTable.expand]
  generalize t.get? name = m, t'.get? name = m' at hget
  cases hget with
  | none => exact .inr ⟨_, rfl, rfl⟩
  | some hbody =>
    refine .inl ⟨_, _, rfl, rfl, ?_⟩
    -- The frame is located at the call, and the body at the call and in the definition.
    refine List.rel_append (List.rel_append (Fragment.like_ofItems hl _) (List.rel_map ?_ hbody))
      (Fragment.like_ofItems hl _)
    rintro _ _ ⟨hst⟩
    exact .statement ⟨hR.expansion hl hst.location, hst.item⟩

end MacroTable.Like

/-! ## Contexts -/

namespace Context.Like

variable {c c' : Context} {location location' : Location} {st st' : Statement}

theorem hasErrors (h : c.Like R c') : c.hasErrors = c'.hasErrors :=
  h.diagnostics.hasErrors

theorem error (h : c.Like R c') (hl : R location location') (fault : Fault) :
    (c.error location fault).Like R (c'.error location' fault) :=
  ⟨h.cpu, h.env, h.diagnostics.error hl fault, h.macros⟩

theorem warn (h : c.Like R c') (hl : R location location') (warning : Warning) :
    (c.warn location warning).Like R (c'.warn location' warning) :=
  ⟨h.cpu, h.env, h.diagnostics.warn hl warning, h.macros⟩

theorem mapEnv (h : c.Like R c') (f : Environment → Environment) :
    (c.mapEnv f).Like R (c'.mapEnv f) :=
  ⟨h.cpu, congrArg f h.env, h.diagnostics, h.macros⟩

theorem evaluate (h : c.Like R c') (e : Expr) : c.evaluate e = c'.evaluate e := by
  rw [Context.evaluate, Context.evaluate, h.env]

theorem valueOf (h : c.Like R c') (hl : R location location') (e : Expr) :
    (c.valueOf location e).1 = (c'.valueOf location' e).1 ∧
      (c.valueOf location e).2.Like R (c'.valueOf location' e).2 := by
  simp only [Context.valueOf, ← h.evaluate e]
  cases c.evaluate e with
  | ok v => exact ⟨rfl, h⟩
  | error err => exact ⟨rfl, h.error hl _⟩

theorem restart (hR : Location.Matching R) (h : c.Like R c') : c.restart.Like R c'.restart := by
  simp only [Context.restart, ← h.env]
  cases c.env.unclosed? with
  | none => exact h.mapEnv _
  | some e => exact (h.mapEnv _).error hR.topLevel _

theorem followStructure? (h : c.Like R c') (hst : st.Like R st') :
    Option.Rel (Context.Like R) (c.followStructure? st) (c'.followStructure? st') := by
  obtain ⟨location, location', item, rfl, rfl, hl⟩ := hst.exists_item
  cases item with
  | blank => exact .some h
  | textSegment name => exact .some (h.mapEnv _)
  | dataSegment name => exact .some (h.mapEnv _)
  | scopeBegin => exact .some (h.mapEnv _)
  | scopeEnd =>
    simp only [Context.followStructure?, ← h.env]
    cases c.env.exitScope? with
    | ok env => exact .some ⟨h.cpu, rfl, h.diagnostics, h.macros⟩
    | error e => exact .some (h.error hl _)
  | _ => exact .none

theorem followStructure (h : c.Like R c') (hst : st.Like R st') :
    (c.followStructure st).Like R (c'.followStructure st') := by
  have hfollow := h.followStructure? hst
  simp only [Context.followStructure]
  generalize c.followStructure? st = d, c'.followStructure? st' = d' at hfollow
  cases hfollow with
  | some h => exact h
  | none => exact h

theorem trackPc? (h : c.Like R c') (hst : st.Like R st') :
    Option.Rel (Context.Like R) (c.trackPc? st) (c'.trackPc? st') := by
  obtain ⟨location, location', item, rfl, rfl, hl⟩ := hst.exists_item
  -- The program counter is set to the value of the target, which is the same in both contexts.
  have hset (target : Expr) : Option.Rel (Context.Like R)
      (some ((c.valueOf location target).2.mapEnv (·.setPc (c.valueOf location target).1)))
      (some ((c'.valueOf location' target).2.mapEnv
        (·.setPc (c'.valueOf location' target).1))) := by
    obtain ⟨hv, hc⟩ := h.valueOf hl target
    rw [← hv]
    exact .some (hc.mapEnv _)
  cases item with
  | instruction i => exact .some (h.mapEnv _)
  | data width endian values => exact .some (h.mapEnv _)
  | byteRange offset length bytes =>
    simp only [Context.trackPc?, ← h.evaluate length]
    cases c.evaluate length with
    | ok n => exact .some (h.mapEnv _)
    | error e => exact .some h
  | setPc target => exact hset target
  | advance target fill => exact hset target
  | checkPc target => exact .some h
  | label symbol value => exact .some h
  | _ => exact .none

theorem follow (h : c.Like R c') (hst : st.Like R st') :
    (c.follow st).Like R (c'.follow st') := by
  have htrack := h.trackPc? hst
  simp only [Context.follow]
  generalize c.trackPc? st = d, c'.trackPc? st' = d' at htrack
  cases htrack with
  | some h => exact h
  | none => exact h.followStructure hst

end Context.Like

/-! ## States of a pass -/

namespace Sweep.Like

variable {μ : Type} {M : μ → μ → Prop} {s s' : Sweep μ} {location location' : Location}

theorem mapContext (h : s.Like R M s') {f f' : Context → Context}
    (hf : (f s.context).Like R (f' s'.context)) : (s.mapContext f).Like R M (s'.mapContext f') :=
  ⟨hf, h.changed, h.memory⟩

theorem error (h : s.Like R M s') (hl : R location location') (fault : Fault) :
    (s.error location fault).Like R M (s'.error location' fault) :=
  h.mapContext (h.context.error hl fault)

theorem warn (h : s.Like R M s') (hl : R location location') (warning : Warning) :
    (s.warn location warning).Like R M (s'.warn location' warning) :=
  h.mapContext (h.context.warn hl warning)

theorem mapEnv (h : s.Like R M s') (f : Environment → Environment) :
    (s.mapEnv f).Like R M (s'.mapEnv f) :=
  h.mapContext (h.context.mapEnv f)

theorem setChanged (h : s.Like R M s') : s.setChanged.Like R M s'.setChanged :=
  ⟨h.context, rfl, h.memory⟩

theorem withMemory (h : s.Like R M s') {m m' : μ} (hm : M m m') :
    Sweep.Like R M { s with memory := m } { s' with memory := m' } :=
  ⟨h.context, h.changed, hm⟩

theorem mapMemory {s s' : Sweep μ} (h : s.Like R Eq s') (f : μ → μ) :
    Sweep.Like R Eq { s with memory := f s.memory } { s' with memory := f s'.memory } :=
  ⟨h.context, h.changed, congrArg f h.memory⟩

theorem withSize (h : s.Like R M s') (n n' : Nat) :
    Sweep.Like R M { s with size := n } { s' with size := n' } :=
  ⟨h.context, h.changed, h.memory⟩

theorem followStructure (h : s.Like R M s') {st st' : Statement} (hst : st.Like R st') :
    (s.mapContext (·.followStructure st)).Like R M (s'.mapContext (·.followStructure st')) :=
  h.mapContext (h.context.followStructure hst)

theorem follow (h : s.Like R M s') {st st' : Statement} (hst : st.Like R st') :
    (s.mapContext (·.follow st)).Like R M (s'.mapContext (·.follow st')) :=
  h.mapContext (h.context.follow hst)

theorem valueOf (h : s.Like R M s') (hl : R location location') (e : Expr) :
    (s.valueOf location e).1 = (s'.valueOf location' e).1 ∧
      (s.valueOf location e).2.Like R M (s'.valueOf location' e).2 := by
  obtain ⟨hv, hc⟩ := h.context.valueOf hl e
  exact ⟨hv, hc, h.changed, h.memory⟩

theorem ite {p : Prop} [Decidable p] {t t' : Sweep μ} (h : s.Like R M s') (ht : t.Like R M t') :
    (if p then s else t).Like R M (if p then s' else t') := by
  split
  · exact h
  · exact ht

end Sweep.Like

/-! ## Sweeps -/

namespace Node.Like

theorem leaf {id id' : Nat} {st st' : Statement} (h : st.Like R st') :
    (Node.leaf id st).Like R (Node.leaf id' st') := by
  simp only [Node.Like, leaves]
  exact .cons h .nil

/-- Like fragments become like nodes, whatever numbers they get. -/
theorem ofFragments {parts parts' : List Fragment}
    (h : List.Forall₂ (Fragment.Like R) parts parts') (size size' : Nat) :
    List.Forall₂ (fun l l' => l.2.Like R l'.2) (leavesAll (Node.ofFragments size parts).1)
      (leavesAll (Node.ofFragments size' parts').1) := by
  induction h generalizing size size' with
  | nil => exact .nil
  | cons hpart hrest ih =>
    obtain ⟨hst⟩ := hpart
    simp only [Node.ofFragments, ofFragment, leavesAll, leaves, List.cons_append, List.nil_append]
    exact .cons hst (ih _ _)

end Node.Like

namespace Visit

variable {μ : Type} {ρ : Nat → Nat → Prop} {M : μ → μ → Prop} {visit : Visit μ}

/-- A pass that comes in like states to like statements, whose numbers `ρ` relates, leaves in like
states and puts like nodes in their place. -/
def Respects (R : Location → Location → Prop) (ρ : Nat → Nat → Prop) (M : μ → μ → Prop)
    (visit : Visit μ) : Prop :=
  ∀ ⦃s s' : Sweep μ⦄ ⦃id id' : Nat⦄ ⦃st st' : Statement⦄, s.Like R M s' → ρ id id' →
    st.Like R st' →
    (visit s id st).1.Like R M (visit s' id' st').1 ∧
      (visit s id st).2.Like R (visit s' id' st').2

theorem Respects.observe {step : Sweep μ → Nat → Statement → Sweep μ}
    (h : ∀ ⦃s s' : Sweep μ⦄ ⦃id id' : Nat⦄ ⦃st st' : Statement⦄, s.Like R M s' → ρ id id' →
      st.Like R st' → (step s id st).Like R M (step s' id' st')) :
    Respects R ρ M (observe step) :=
  fun _ _ _ _ _ _ hs hid hst => ⟨h hs hid hst, .leaf hst⟩

/-- Two walks over like leaves go through like states. -/
theorem Respects.reached (hv : visit.Respects R ρ M) {ls ls' : List (Nat × Statement)}
    (hls : List.Forall₂ (fun l l' => ρ l.1 l'.1 ∧ l.2.Like R l'.2) ls ls') {s s' : Sweep μ}
    (hs : s.Like R M s') :
    (ls.foldl visit.step s).Like R M (ls'.foldl visit.step s') ∧
      List.Forall₂ (fun x x' => (visit x.1 x.2.1 x.2.2).2.Like R (visit x'.1 x'.2.1 x'.2.2).2)
        (reached visit.step s ls) (reached visit.step s' ls') := by
  induction hls generalizing s s' with
  | nil => exact ⟨hs, .nil⟩
  | cons hl _ ih =>
    obtain ⟨hstep, hnode⟩ := hv hs hl.1 hl.2
    obtain ⟨hend, hall⟩ := ih hstep
    exact ⟨hend, .cons hnode hall⟩

/-- **A sweep respects likeness** if its pass does, and what is done at its end. -/
theorem Respects.sweep (hR : Location.Matching R) (hv : visit.Respects R ρ M)
    {close : Context → Context} (hclose : ∀ {c c'}, c.Like R c' → (close c).Like R (close c'))
    {w w' : Workspace} (hw : w.context.Like R w'.context)
    (hls : List.Forall₂ (fun l l' => ρ l.1 l'.1 ∧ l.2.Like R l'.2) w.program.leaves
      w'.program.leaves)
    {memory memory' : μ} (hm : M memory memory') :
    (w.sweep memory visit close).1.Like R (w'.sweep memory' visit close).1 ∧
      (w.sweep memory visit close).2.1 = (w'.sweep memory' visit close).2.1 ∧
      M (w.sweep memory visit close).2.2 (w'.sweep memory' visit close).2.2 := by
  have hopening : (w.opening memory).Like R M (w'.opening memory') := ⟨hw.restart hR, rfl, hm⟩
  obtain ⟨hclosing, hnodes⟩ := hv.reached hls hopening
  simp only [Workspace.sweep_eq]
  refine ⟨⟨?_, (hclose hclosing.context).restart hR⟩, hclosing.changed, hclosing.memory⟩
  simp only [Node.Like, Program.root, Node.leaves, Node.leavesAll_traverseAll]
  exact List.rel_flatMap hnodes fun _ _ h => h

end Visit

end Assembler6502
