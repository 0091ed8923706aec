import Assembler6502.Proofs.Bindings
import Assembler6502.Proofs.Likeness
import Assembler6502.Proofs.Numbering

/-!
# What assembling does not look at

Assembling looks at the items of a program in their order, and at nothing else. Every pass does
alike what is alike: it leaves like programs, and finds the same faults and warnings in the same
order. The discovery of labels is the only pass that looks at the numbers of statements, and all it
asks is whether two of them are the same; so it does alike what is alike where numbers tell
statements apart. The rounds of like programs go in lockstep, and in the end like programs become
the same bytes.

## Main definitions

* `Discovery.Like`: what the discovery of labels has in mind, up to the numbers of the statements

## Main results

* `Stage.like_runStages`: stages without the discovery of labels do alike what is alike
* `Workspace.Like.discovery`: the discovery of labels
* `Assembly.like_ofProgram`: assembling does not look at nesting, numbers and places
-/

namespace Assembler6502

variable {R : Location → Location → Prop}

/-- What the discovery of labels has in mind about leaves whose numbers `ρ` relates. -/
structure Discovery.Like (ρ : Nat → Nat → Prop) (d d' : Discovery) : Prop where
  definitions : ∀ key, Option.Rel ρ (d.definitions.get? key) (d'.definitions.get? key)
  reported : List.Forall₂ ρ d.reported d'.reported
  rounds : d.rounds = d'.rounds
  pcKnown : d.pcKnown = d'.pcKnown

/-! ## Macros -/

namespace Pass

variable {μ : Type} {M : μ → μ → Prop} {ρ : Nat → Nat → Prop} {s s' : Sweep μ}
  {location location' : Location} {st st' : Statement}

theorem like_withMacros (hs : s.Like R M s') (hl : R location location')
    {change change' : MacroTable → MacroTable × Except MacroError Unit}
    (hchange : (change s.context.macros).1.Like R (change' s'.context.macros).1 ∧
      (change s.context.macros).2 = (change' s'.context.macros).2) :
    (withMacros s location change).Like R M (withMacros s' location' change') := by
  obtain ⟨hmacros, hresult⟩ := hchange
  simp only [withMacros, ← hresult]
  have hs' : Sweep.Like R M { s with context.macros := (change s.context.macros).1 }
      { s' with context.macros := (change' s'.context.macros).1 } :=
    ⟨⟨hs.context.cpu, hs.context.env, hs.context.diagnostics, hmacros⟩, hs.changed, hs.memory⟩
  cases (change s.context.macros).2 with
  | ok u => exact hs'
  | error e => exact hs'.error hl _

theorem respects_defineMacros : Visit.Respects R ρ Eq defineMacros := by
  intro s s' id id' st st' hs _ hst
  obtain ⟨location, location', item, rfl, rfl, hl⟩ := hst.exists_item
  have hblank : (Node.leaf id ⟨location, .blank⟩).Like R (Node.leaf id' ⟨location', .blank⟩) :=
    .leaf ⟨hl, rfl⟩
  have hsame : (Node.leaf id ⟨location, item⟩).Like R (Node.leaf id' ⟨location', item⟩) :=
    .leaf ⟨hl, rfl⟩
  -- Definitions are open on both sides or on none, so both sides take the same branch.
  cases item with
  | macroBegin name =>
    simp only [defineMacros, ← hs.context.macros.isDefining]
    split
    · exact ⟨(hs.error hl _).withMemory rfl, hsame⟩
    · refine ⟨?_, hblank⟩
      dsimp only
      exact like_withMacros hs hl (hs.context.macros.define name)
  | macroEnd =>
    simp only [defineMacros, ← hs.context.macros.isDefining, ← hs.memory]
    split
    · exact ⟨like_withMacros hs hl hs.context.macros.endDefine, hblank⟩
    · split
      · exact ⟨hs, hsame⟩
      · exact ⟨hs.error hl _, hsame⟩
  | _ =>
    simp only [defineMacros, ← hs.context.macros.isDefining]
    split
    · refine ⟨?_, hblank⟩
      dsimp only
      exact like_withMacros hs hl (hs.context.macros.capture ⟨hl, rfl⟩)
    · exact ⟨hs.followStructure ⟨hl, rfl⟩, hsame⟩

theorem like_closeDefinition (hR : Location.Matching R) {c c' : Context} (h : c.Like R c') :
    (closeDefinition c).Like R (closeDefinition c') := by
  obtain ⟨hmacros, hresult⟩ := h.macros.abandon
  simp only [closeDefinition, ← hresult]
  have hc : Context.Like R { c with macros := c.macros.abandon.1 }
      { c' with macros := c'.macros.abandon.1 } := ⟨h.cpu, h.env, h.diagnostics, hmacros⟩
  cases c.macros.abandon.2 with
  | ok u => exact hc
  | error e => exact hc.error hR.topLevel _

theorem respects_expandMacros (hR : Location.Matching R) :
    Visit.Respects R ρ Eq expandMacros := by
  intro s s' id id' st st' hs _ hst
  obtain ⟨location, location', item, rfl, rfl, hl⟩ := hst.exists_item
  cases item with
  | invoke name arguments =>
    rcases hs.context.macros.expand hR hl name arguments with
      ⟨parts, parts', hexpand, hexpand', hparts⟩ | ⟨e, hexpand, hexpand'⟩
    · simp only [expandMacros, hexpand, hexpand']
      refine ⟨hs.setChanged.withSize _ _, ?_⟩
      simp only [Node.Like, Node.leaves]
      exact Node.Like.ofFragments hparts _ _
    · simp only [expandMacros, hexpand, hexpand']
      exact ⟨hs.setChanged.error hl _, .leaf ⟨hl, rfl⟩⟩
  | _ => exact ⟨hs.followStructure ⟨hl, rfl⟩, .leaf ⟨hl, rfl⟩⟩

/-! ## Labels -/

section Resolution

variable {s s' : Sweep Discovery} {id id' : Nat}

/-- The second definition of a label is found at leaves that correspond. -/
theorem like_noteDefinition (hρ : Relator.BiUnique ρ) (hs : s.Like R (Discovery.Like ρ) s')
    (hid : ρ id id') (hl : R location location') (symbol : Symbol) :
    (noteDefinition s id location symbol).Like R (Discovery.Like ρ)
      (noteDefinition s' id' location' symbol) := by
  have hget := hs.memory.definitions (Discovery.key s.context.env symbol)
  have hreported : s.memory.reported.contains id = s'.memory.reported.contains id' := by
    rw [Bool.eq_iff_iff, List.contains_iff_mem, List.contains_iff_mem]
    exact List.rel_mem hρ hid hs.memory.reported
  simp only [noteDefinition, ← hs.context.env, ← hreported]
  generalize hkey : Discovery.key s.context.env symbol = key at hget
  generalize hfirst : s.memory.definitions.get? key = first at hget
  generalize hfirst' : s'.memory.definitions.get? key = first' at hget
  cases hget with
  | none =>
    refine hs.withMemory ⟨fun other => ?_, hs.memory.reported, hs.memory.rounds,
      hs.memory.pcKnown⟩
    simp only [Table.get?_insert]
    split
    · exact .some hid
    · exact hs.memory.definitions other
  | @some first first' hfirsts =>
    -- Leaves correspond one to one, so the first definition is this one on both sides or on none.
    have hsame : first = id ↔ first' = id' :=
      ⟨fun h => hρ.2 (h ▸ hfirsts) hid, fun h => hρ.1 (h ▸ hfirsts) hid⟩
    simp only [hsame]
    refine .ite hs ((hs.error hl _).withMemory ?_)
    exact ⟨hs.memory.definitions, .cons hid hs.memory.reported, hs.memory.rounds,
      hs.memory.pcKnown⟩

theorem like_bindIfValid (hs : s.Like R (Discovery.Like ρ) s') (symbol : Symbol) (value : Expr) :
    (bindIfValid s symbol value).Like R (Discovery.Like ρ) (bindIfValid s' symbol value) := by
  simp only [bindIfValid, ← hs.context.env, ← hs.memory.pcKnown]
  exact .ite (hs.mapEnv _).setChanged hs

theorem like_warnOfName (hs : s.Like R (Discovery.Like ρ) s') (hl : R location location')
    (symbol : Symbol) :
    (warnOfName s location symbol).Like R (Discovery.Like ρ) (warnOfName s' location' symbol) := by
  simp only [warnOfName, ← hs.context.cpu, ← hs.memory.rounds]
  refine .ite ?_ hs
  cases nameWarning? s.context.cpu symbol with
  | none => exact hs
  | some warning => exact hs.warn hl warning

/-- The discovery of labels does alike what is alike if numbers are the same where the numbers of
the corresponding leaves are. -/
theorem respects_initLabels (hρ : Relator.BiUnique ρ) :
    Visit.Respects R ρ (Discovery.Like ρ) initLabels := by
  refine Visit.Respects.observe fun s s' id id' st st' hs hid hst => ?_
  obtain ⟨location, location', item, rfl, rfl, hl⟩ := hst.exists_item
  have hknown (target : Expr) : Sweep.Like R (Discovery.Like ρ)
      { s with memory.pcKnown := target.isValid s.context.env.valuation s.memory.pcKnown }
      { s' with memory.pcKnown := target.isValid s'.context.env.valuation s'.memory.pcKnown } := by
    rw [← hs.context.env, ← hs.memory.pcKnown]
    exact hs.withMemory ⟨hs.memory.definitions, hs.memory.reported, hs.memory.rounds, rfl⟩
  cases item with
  | setPc target => exact hknown target
  | advance target fill => exact hknown target
  | label symbol value =>
    exact like_warnOfName (like_bindIfValid (like_noteDefinition hρ hs hid hl symbol) _ _) hl _
  | _ => exact hs.followStructure ⟨hl, rfl⟩

end Resolution

theorem like_checkTarget {s s' : Sweep Bool} (hs : s.Like R Eq s') (hst : st.Like R st')
    (target : Expr) (what : String) :
    (checkTarget s st target what).Like R Eq (checkTarget s' st' target what) := by
  simp only [checkTarget, ← hs.context.env, ← hs.memory]
  exact .ite (hs.withMemory rfl) ((hs.withMemory rfl).error hst.location _)

theorem respects_checkCircularity : Visit.Respects R ρ Eq checkCircularity := by
  refine Visit.Respects.observe fun s s' id id' st st' hs _ hst => ?_
  obtain ⟨location, location', item, rfl, rfl, hl⟩ := hst.exists_item
  have hcheck (e : Expr) (fault : Fault) : Sweep.Like R Eq
      (if e.isValid s.context.env.valuation s.memory then s else s.error location fault)
      (if e.isValid s'.context.env.valuation s'.memory then s' else s'.error location' fault) := by
    rw [← hs.context.env, ← hs.memory]
    exact .ite hs (hs.error hl fault)
  cases item with
  | setPc target => exact like_checkTarget hs hst _ _
  | advance target fill => exact like_checkTarget hs hst _ _
  | checkPc target => exact hcheck target _
  | label symbol value => exact hcheck value _
  | _ => exact hs.followStructure ⟨hl, rfl⟩

theorem like_checkExpression {c c' : Context} (hc : c.Like R c') (hl : R location location')
    (e : Expr) : (checkExpression location c e).Like R (checkExpression location' c' e) := by
  simp only [checkExpression, ← hc.evaluate e]
  cases c.evaluate e with
  | ok v => exact hc
  | error err => exact hc.error hl _

theorem respects_checkExpressions : Visit.Respects R ρ Eq checkExpressions := by
  refine Visit.Respects.observe fun s s' id id' st st' hs _ hst => hs.mapContext ?_
  have hfollow := hs.context.followStructure? hst
  generalize s.context.followStructure? st = d, s'.context.followStructure? st' = d' at hfollow
  cases hfollow with
  | some h => exact h
  | none =>
    dsimp only
    rw [← hst.item]
    have hc := hs.context
    generalize s.context = c, s'.context = c' at hc
    generalize st.item.expressions = es
    induction es generalizing c c' with
    | nil => exact hc
    | cons e es ih => exact ih _ _ (like_checkExpression hc hst.location e)

theorem respects_updateLabels : Visit.Respects R ρ Eq updateLabels := by
  refine Visit.Respects.observe fun s s' id id' st st' hs _ hst => ?_
  obtain ⟨location, location', item, rfl, rfl, hl⟩ := hst.exists_item
  cases item with
  | label symbol value =>
    obtain ⟨hv, hs'⟩ := hs.valueOf hl value
    dsimp only
    rw [← hv, ← hs'.context.env]
    exact (hs'.ite hs'.setChanged).mapEnv _
  | _ => exact hs.follow ⟨hl, rfl⟩

/-! ## Instructions -/

theorem like_operandValue (hs : s.Like R M s') (hl : R location location') (i : Instruction) :
    (operandValue s location i).1 = (operandValue s' location' i).1 ∧
      (operandValue s location i).2.Like R M (operandValue s' location' i).2 := by
  simp only [operandValue]
  cases i.operand with
  | some e => exact hs.valueOf hl e
  | none => exact ⟨rfl, hs⟩

theorem respects_easyModes : Visit.Respects R ρ Eq easyModes := by
  intro s s' id id' st st' hs _ hst
  obtain ⟨location, location', item, rfl, rfl, hl⟩ := hst.exists_item
  cases item with
  | instruction i =>
    simp only [easyModes]
    cases i.addressing with
    | resolved mode => exact ⟨hs, .leaf ⟨hl, rfl⟩⟩
    | pending shape =>
      obtain ⟨hv, hs'⟩ := like_operandValue hs hl i
      dsimp only
      rw [← hs.context.cpu, ← hv]
      cases i.branchMode? s.context.cpu with
      | some mode => exact ⟨hs, .leaf ⟨hl, rfl⟩⟩
      | none =>
        dsimp only
        split
        · exact ⟨hs', .leaf ⟨hl, rfl⟩⟩
        · exact ⟨hs, .leaf ⟨hl, rfl⟩⟩
  | _ => exact ⟨hs.followStructure ⟨hl, rfl⟩, .leaf ⟨hl, rfl⟩⟩

theorem like_resized? (hs : s.Like R M s') (hl : R location location') (i : Instruction) :
    (resized? s location i).1 = (resized? s' location' i).1 ∧
      (resized? s location i).2.Like R M (resized? s' location' i).2 := by
  obtain ⟨hv, hs'⟩ := like_operandValue hs hl i
  simp only [resized?]
  split
  · exact ⟨by rw [hv, hs'.context.cpu], hs'⟩
  · exact ⟨rfl, hs⟩

theorem respects_collapse : Visit.Respects R ρ Eq collapse := by
  intro s s' id id' st st' hs _ hst
  obtain ⟨location, location', item, rfl, rfl, hl⟩ := hst.exists_item
  cases item with
  | instruction i =>
    obtain ⟨hi, hs'⟩ := like_resized? hs hl i
    simp only [collapse]
    generalize resized? s location i = x at hi hs' ⊢
    generalize resized? s' location' i = x' at hi hs' ⊢
    obtain ⟨j, s⟩ := x
    obtain ⟨j', s'⟩ := x'
    obtain rfl : j = j' := hi
    cases j with
    | none => exact ⟨hs'.follow ⟨hl, rfl⟩, .leaf ⟨hl, rfl⟩⟩
    | some i => exact ⟨hs'.setChanged.follow ⟨hl, rfl⟩, .leaf ⟨hl, rfl⟩⟩
  | _ => exact ⟨hs.follow ⟨hl, rfl⟩, .leaf ⟨hl, rfl⟩⟩

theorem respects_normalizeModes : Visit.Respects R ρ Eq normalizeModes := by
  intro s s' id id' st st' hs _ hst
  obtain ⟨location, location', item, rfl, rfl, hl⟩ := hst.exists_item
  cases item with
  | instruction i =>
    simp only [normalizeModes]
    cases i.addressing with
    | resolved mode => exact ⟨hs, .leaf ⟨hl, rfl⟩⟩
    | pending shape => exact ⟨hs, .leaf ⟨hl, rfl⟩⟩
  | _ => exact ⟨hs.followStructure ⟨hl, rfl⟩, .leaf ⟨hl, rfl⟩⟩

/-! ## Branches -/

section Extension

variable {s s' : Sweep Unit} {id id' : Nat} {branch inverse : Mnemonic} {target : Expr}

theorem like_inPlace (hst : st.Like R st') (i : Instruction) :
    (inPlace st i).Like R (inPlace st' i) :=
  ⟨hst.location, rfl⟩

theorem like_replaceByJump (hs : s.Like R Eq s') (hst : st.Like R st') :
    (replaceByJump s id st branch target).1.Like R Eq
        (replaceByJump s' id' st' branch target).1 ∧
      (replaceByJump s id st branch target).2.Like R
        (replaceByJump s' id' st' branch target).2 :=
  ⟨(hs.warn hst.location _).setChanged.follow (like_inPlace hst _), .leaf (like_inPlace hst _)⟩

theorem like_replaceBySkip {again : Option (Visit Unit)}
    (hagain : ∀ visit ∈ again, Visit.Respects R (fun _ _ => True) Eq visit) (hs : s.Like R Eq s')
    (hst : st.Like R st') :
    (replaceBySkip again s id st branch inverse target).1.Like R Eq
        (replaceBySkip again s' id' st' branch inverse target).1 ∧
      (replaceBySkip again s id st branch inverse target).2.Like R
        (replaceBySkip again s' id' st' branch inverse target).2 := by
  have hwarned := (hs.warn hst.location (.branchExtended branch inverse)).setChanged
  have hs₀ := hwarned.withSize (s.size + 2) (s'.size + 2)
  cases again with
  | none => exact ⟨hs₀.error hst.location _, .leaf hst⟩
  | some visit =>
    have hv : Visit.Respects R (fun _ _ => True) Eq visit := hagain visit rfl
    obtain ⟨hs₁, hskip⟩ := @hv _ _ s.size s'.size _ _ hs₀ trivial
      (like_inPlace hst (skippingBranch inverse))
    obtain ⟨hs₂, hjump⟩ := @hv _ _ (s.size + 1) (s'.size + 1) _ _ hs₁ trivial
      (like_inPlace hst (jumpTo target))
    refine ⟨hs₂, ?_⟩
    simp only [replaceBySkip, Node.Like, Node.leaves, Node.leavesAll, List.append_nil]
    exact List.rel_append hskip hjump

theorem respects_extendBranch {again : Option (Visit Unit)}
    (hagain : ∀ visit ∈ again, Visit.Respects R (fun _ _ => True) Eq visit) :
    Visit.Respects R ρ Eq (extendBranch again) := by
  intro s s' id id' st st' hs _ hst
  obtain ⟨location, location', item, rfl, rfl, hl⟩ := hst.exists_item
  cases item with
  | instruction i =>
    simp only [extendBranch]
    cases i.branchTarget? with
    | none => exact ⟨hs.follow hst, .leaf hst⟩
    | some target =>
      obtain ⟨hv, hs'⟩ := hs.valueOf hl target
      dsimp only
      -- The target and the counter are the same, so the branch reaches it on both sides or on none.
      rw [← hv, ← hs'.context.env]
      split
      · exact ⟨hs'.mapEnv _, .leaf hst⟩
      · split
        · exact like_replaceByJump hs' hst
        · cases i.mnemonic.inverse? with
          | none => exact ⟨hs'.mapEnv _, .leaf hst⟩
          | some inverse => exact like_replaceBySkip hagain hs' hst
  | _ => exact ⟨hs.follow hst, .leaf hst⟩

theorem respects_extendBranches : Visit.Respects R ρ Eq extendBranches := by
  refine respects_extendBranch fun visit hvisit => ?_
  obtain rfl : extendBranch none = visit := Option.some.inj hvisit
  exact respects_extendBranch fun visit hnone => nomatch hnone

end Extension

/-! ## Bytes -/

section Emission

variable {s s' : Sweep Image}

theorem like_write (hs : s.Like R Eq s') (hl : R location location') (bytes : List UInt8) :
    (write s location bytes).Like R Eq (write s' location' bytes) := by
  simp only [write, ← hs.context.env, ← hs.memory]
  exact .ite (hs.withMemory rfl) (hs.error hl _)

theorem like_checkedValue (hs : s.Like R Eq s') (hl : R location location') (width : Width)
    (e : Expr) :
    (checkedValue s location width e).1 = (checkedValue s' location' width e).1 ∧
      (checkedValue s location width e).2.Like R Eq (checkedValue s' location' width e).2 := by
  obtain ⟨hv, hs'⟩ := hs.valueOf hl e
  simp only [checkedValue, ← hv]
  split
  · exact ⟨rfl, hs'⟩
  · exact ⟨rfl, hs'.error hl _⟩

theorem like_emitValue (hs : s.Like R Eq s') (hl : R location location') (width : Width)
    (endian : Endian) (e : Expr) :
    (emitValue s location width endian e).Like R Eq (emitValue s' location' width endian e) := by
  obtain ⟨hn, hs'⟩ := like_checkedValue hs hl width e
  simp only [emitValue, ← hn]
  exact like_write hs' hl _

theorem like_emitDisplacement (hs : s.Like R Eq s') (hl : R location location') (count : Nat)
    (low high : Value) (target : Expr) :
    (emitDisplacement s location count low high target).Like R Eq
      (emitDisplacement s' location' count low high target) := by
  obtain ⟨hv, hs'⟩ := hs.valueOf hl target
  simp only [emitDisplacement, ← hv, ← hs'.context.env]
  exact .ite (like_write hs' hl _) (like_write (hs'.error hl _) hl _)

theorem like_emitOperand (hs : s.Like R Eq s') (hl : R location location') (mode : Mode)
    (e : Expr) :
    (emitOperand s location mode e).Like R Eq (emitOperand s' location' mode e) := by
  simp only [emitOperand]
  split
  · exact like_emitDisplacement hs hl _ _ _ _
  · exact like_emitDisplacement hs hl _ _ _ _
  · split
    · exact hs
    · exact like_emitValue hs hl _ _ _
    · exact like_emitValue hs hl _ _ _

theorem like_emitInstruction (hs : s.Like R Eq s') (hl : R location location')
    (i : Instruction) :
    (emitInstruction s location i).Like R Eq (emitInstruction s' location' i) := by
  simp only [emitInstruction, ← hs.context.cpu]
  cases i.addressing with
  | pending shape => exact hs.error hl _
  | resolved mode =>
    dsimp only
    cases s.context.cpu.opcode? i.mnemonic mode with
    | none => exact hs.error hl _
    | some opcode =>
      dsimp only
      have hwritten := like_write hs hl [opcode]
      -- The operand, if there is one, is written behind the opcode.
      cases i.operand with
      | some e =>
        exact ((like_emitOperand hwritten hl mode e).mapEnv _).mapMemory fun m =>
          { m with stats.code := m.stats.code + i.size }
      | none =>
        exact (hwritten.mapEnv _).mapMemory fun m =>
          { m with stats.code := m.stats.code + i.size }

theorem like_emitData (hs : s.Like R Eq s') (hl : R location location') (width : Width)
    (endian : Endian) (values : List Expr) :
    (emitData s location width endian values).Like R Eq
      (emitData s' location' width endian values) := by
  have hvalues : Sweep.Like R Eq
      (values.foldl (fun s e => emitValue s location width endian e) s)
      (values.foldl (fun s e => emitValue s location' width endian e) s') := by
    induction values generalizing s s' with
    | nil => exact hs
    | cons e rest ih => exact ih (like_emitValue hs hl width endian e)
  exact (hvalues.mapEnv _).mapMemory fun m =>
    { m with stats.data := m.stats.data + width.bytes * values.length }

theorem like_emitByteRange (hs : s.Like R Eq s') (hl : R location location')
    (offset length : Expr) (bytes : List UInt8) :
    (emitByteRange s location offset length bytes).Like R Eq
      (emitByteRange s' location' offset length bytes) := by
  obtain ⟨hoffset, hs₁⟩ := hs.valueOf hl offset
  obtain ⟨hlength, hs₂⟩ := hs₁.valueOf hl length
  simp only [emitByteRange, ← hoffset, ← hlength]
  split
  · exact hs₂.error hl _
  · rename_i part _
    exact ((like_write hs₂ hl part).mapEnv _).mapMemory fun m =>
      { m with stats.data := m.stats.data + part.length }

theorem like_emitAdvance (hs : s.Like R Eq s') (hl : R location location') (target fill : Expr) :
    (emitAdvance s location target fill).Like R Eq (emitAdvance s' location' target fill) := by
  obtain ⟨hv, hs₁⟩ := hs.valueOf hl target
  obtain ⟨hn, hs₂⟩ := like_checkedValue hs₁ hl .byte fill
  simp only [emitAdvance, ← hv, ← hs.context.env, ← hn]
  refine .ite ((hs₁.error hl _).mapEnv _) (.ite (hs₁.error hl _) (.ite ?_ (hs₁.mapEnv _)))
  exact ((like_write hs₂ hl _).mapMemory fun m => { m with stats.filler := m.stats.filler +
    ((s.valueOf location target).1.toInt - s.context.env.pc.toInt).toNat }).mapEnv _

theorem like_emitCheckPc (hs : s.Like R Eq s') (hl : R location location') (target : Expr) :
    (emitCheckPc s location target).Like R Eq (emitCheckPc s' location' target) := by
  obtain ⟨hv, hs'⟩ := hs.valueOf hl target
  simp only [emitCheckPc, ← hv, ← hs.context.env]
  exact .ite (hs'.error hl _) hs'

/-- **Like programs make the same image.** -/
theorem respects_emit : Visit.Respects R ρ Eq emit := by
  refine Visit.Respects.observe fun s s' id id' st st' hs _ hst => ?_
  obtain ⟨location, location', item, rfl, rfl, hl⟩ := hst.exists_item
  have hfollow := hs.context.followStructure? hst
  cases item with
  | instruction i => exact like_emitInstruction hs hl i
  | data width endian values => exact like_emitData hs hl width endian values
  | byteRange offset length bytes => exact like_emitByteRange hs hl offset length bytes
  | label symbol value => exact hs
  | setPc target =>
    obtain ⟨hv, hs'⟩ := hs.valueOf hl target
    dsimp only
    rw [← hv]
    exact hs'.mapEnv _
  | checkPc target => exact like_emitCheckPc hs hl target
  | advance target fill => exact like_emitAdvance hs hl target fill
  | _ =>
    dsimp only
    generalize s.context.followStructure? _ = d, s'.context.followStructure? _ = d' at hfollow
    cases hfollow with
    | some h => exact ⟨h, hs.changed, hs.memory⟩
    | none => exact hs.error hl _

end Emission

end Pass

/-! ## Stages -/

namespace Workspace

variable {w w' : Workspace}

theorem Like.leaves (h : w.Like R w') :
    List.Forall₂ (fun l l' => True ∧ l.2.Like R l'.2) w.program.leaves w'.program.leaves :=
  h.program.imp fun _ _ h => ⟨trivial, h⟩

/-- Every pass but the discovery of labels does alike what is alike, whatever the discovery has in
mind. -/
theorem Like.runPass (hR : Location.Matching R) (h : w.Like R w') {kind : Pass.Kind}
    (hkind : kind ≠ .initLabels) (d d' : Discovery) :
    (w.runPass kind d).1.Like R (w'.runPass kind d').1 ∧
      (w.runPass kind d).2.1 = (w'.runPass kind d').2.1 := by
  have hsweep {μ : Type} {visit : Visit μ} (hv : visit.Respects R (fun _ _ => True) Eq)
      {close : Context → Context} (hclose : ∀ {c c'}, c.Like R c' → (close c).Like R (close c'))
      (memory : μ) : (w.sweep memory visit close).1.Like R (w'.sweep memory visit close).1 ∧
        (w.sweep memory visit close).2.1 = (w'.sweep memory visit close).2.1 := by
    obtain ⟨hlike, hchanged, -⟩ := hv.sweep hR hclose h.context h.leaves rfl
    exact ⟨hlike, hchanged⟩
  simp only [Workspace.runPass, ← h.context.hasErrors]
  -- Both programs are at fault or none is.
  split
  · exact ⟨h, rfl⟩
  · cases kind with
    | defineMacros => exact hsweep Pass.respects_defineMacros (Pass.like_closeDefinition hR) _
    | expandMacros => exact hsweep (Pass.respects_expandMacros hR) id _
    | initLabels => exact absurd rfl hkind
    | checkCircularity => exact hsweep Pass.respects_checkCircularity id _
    | checkExpressions => exact hsweep Pass.respects_checkExpressions id _
    | easyModes => exact hsweep Pass.respects_easyModes id _
    | updateLabels => exact hsweep Pass.respects_updateLabels id _
    | collapse => exact hsweep Pass.respects_collapse id _
    | extendBranches => exact hsweep Pass.respects_extendBranches id _
    | normalizeModes => exact hsweep Pass.respects_normalizeModes id _
    | emit => exact hsweep Pass.respects_emit id _

theorem Like.emit (hR : Location.Matching R) (h : w.Like R w') :
    w.emit.1.Like R w'.emit.1 ∧ w.emit.2.2 = w'.emit.2.2 := by
  simp only [Workspace.emit, ← h.context.hasErrors]
  split
  · exact ⟨h, rfl⟩
  · obtain ⟨hlike, -, himage⟩ := Pass.respects_emit.sweep hR (ρ := fun _ _ => True)
      (fun {c c'} (h : c.Like R c') => show (id c).Like R (id c') from h) h.context h.leaves
      (Eq.refl ({} : Image))
    exact ⟨hlike, himage⟩

theorem Like.exhausted (hR : Location.Matching R) (h : w.Like R w') (fault : Fault) :
    Workspace.Like R { w with context := w.context.error .topLevel fault }
      { w' with context := w'.context.error .topLevel fault } :=
  ⟨h.program, h.context.error hR.topLevel fault⟩

end Workspace

namespace Stage

/-- **Stages without the discovery of labels** do alike what is alike, whatever their passes have in
mind. -/
theorem like_runStages (hR : Location.Matching R) {stages : List Stage}
    (hkinds : .initLabels ∉ kindsAll stages) {w w' : Workspace} (h : w.Like R w') :
    (Assembly.runStages stages w).Like R (Assembly.runStages stages w') :=
  lockstep_runStages (A := Workspace.Like R) (S := False)
    ⟨fun h => h.context.hasErrors, fun _ h => h.exhausted hR _⟩
    (fun _ hkind _ _ d d' h _ =>
      have hpass := h.runPass hR (fun heq => hkinds (heq ▸ hkind)) d d'
      ⟨hpass.1, hpass.2, False.elim⟩) h

end Stage

/-! ## Discovery -/

/-- Different entries of two lists stand at different places, so entries at the same place determine
each other. -/
theorem biUnique_zip {xs ys : List Nat} (hx : xs.Nodup) (hy : ys.Nodup) :
    Relator.BiUnique fun x y => (x, y) ∈ xs.zip ys := by
  have hplace {x y : Nat} (h : (x, y) ∈ xs.zip ys) :
      ∃ i : Nat, xs[i]? = some x ∧ ys[i]? = some y := by
    obtain ⟨i, hi⟩ := List.mem_iff_getElem?.mp h
    exact ⟨i, List.getElem?_zip_eq_some.mp hi⟩
  have hinj {zs : List Nat} (hz : zs.Nodup) {i j z : Nat} (hi : zs[i]? = some z)
      (hj : zs[j]? = some z) : i = j :=
    (List.getElem?_inj (List.getElem?_eq_some_iff.mp hi).1 hz).mp (hi.trans hj.symm)
  constructor
  · intro a b c ha hb
    obtain ⟨i, hai, hci⟩ := hplace ha
    obtain ⟨j, hbj, hcj⟩ := hplace hb
    obtain rfl := hinj hy hci hcj
    exact Option.some.inj (hai.symm.trans hbj)
  · intro a b c hb hc
    obtain ⟨i, hai, hbi⟩ := hplace hb
    obtain ⟨j, haj, hcj⟩ := hplace hc
    obtain rfl := hinj hx hai haj
    exact Option.some.inj (hbi.symm.trans hcj)

namespace Workspace

variable {w w' : Workspace}

theorem Like.numbered (h : w.Like R w') :
    List.Forall₂ (fun l l' => (l.1, l'.1) ∈
        (w.program.leaves.map (·.1)).zip (w'.program.leaves.map (·.1)) ∧ l.2.Like R l'.2)
      w.program.leaves w'.program.leaves := by
  obtain ⟨hlength, hlike⟩ := List.forall₂_iff_zip.mp h.program
  refine List.forall₂_iff_zip.mpr ⟨hlength, fun {l l'} hl => ⟨?_, hlike hl⟩⟩
  rw [List.zip_map, List.mem_map]
  exact ⟨(l, l'), hl, rfl⟩

/-- A round of the discovery of labels does alike what is alike. -/
theorem Like.runPass_initLabels {ρ : Nat → Nat → Prop} (hR : Location.Matching R)
    (hρ : Relator.BiUnique ρ) (h : w.Like R w')
    (hls : List.Forall₂ (fun l l' => ρ l.1 l'.1 ∧ l.2.Like R l'.2) w.program.leaves
      w'.program.leaves) {d d' : Discovery} (hd : d.Like ρ d') :
    (w.runPass .initLabels d).1.Like R (w'.runPass .initLabels d').1 ∧
      (w.runPass .initLabels d).2.1 = (w'.runPass .initLabels d').2.1 ∧
      (w.runPass .initLabels d).2.2.Like ρ (w'.runPass .initLabels d').2.2 := by
  simp only [Workspace.runPass, ← h.context.hasErrors]
  split
  · exact ⟨h, rfl, hd⟩
  · exact (Pass.respects_initLabels hρ).sweep hR id h.context hls
      ⟨hd.definitions, hd.reported, congrArg (· + 1) hd.rounds, rfl⟩

theorem leaves_runPass_initLabels (d : Discovery) :
    (w.runPass .initLabels d).1.program.leaves = w.program.leaves := by
  simp only [Workspace.runPass]
  split
  · rfl
  · exact leaves_observe

/-- **The discovery of labels does alike what is alike** where numbers tell statements apart. -/
theorem Like.discovery (hR : Location.Matching R) (h : w.Like R w') (hw : w.program.Numbered)
    (hw' : w'.program.Numbered) (name : String) (rounds : Nat) :
    ((Stage.fixpoint name [.pass .initLabels] rounds).go w).1.Like R
      ((Stage.fixpoint name [.pass .initLabels] rounds).go w').1 := by
  let ρ : Nat → Nat → Prop := fun n n' =>
    (n, n') ∈ (w.program.leaves.map (·.1)).zip (w'.program.leaves.map (·.1))
  have hρ : Relator.BiUnique ρ := biUnique_zip hw.nodup_leaves hw'.nodup_leaves
  -- What the rounds have in mind is about the leaves, and these stay what they are.
  let A : Workspace → List Stage.Memory → Workspace → List Stage.Memory → Prop :=
    fun v m v' m' => v.Like R v' ∧ v.program.leaves = w.program.leaves ∧
      v'.program.leaves = w'.program.leaves ∧
      (m.headD .fresh).discovery.Like ρ (m'.headD .fresh).discovery
  have hround {v m v' m'} (hA : A v m v' m') :
      A (Stage.runAll [.pass .initLabels] v m).1 (Stage.runAll [.pass .initLabels] v m).2.2
          (Stage.runAll [.pass .initLabels] v' m').1
          (Stage.runAll [.pass .initLabels] v' m').2.2 ∧
        (Stage.runAll [.pass .initLabels] v m).2.1 =
          (Stage.runAll [.pass .initLabels] v' m').2.1 := by
    obtain ⟨hlike, hleaves, hleaves', hdiscovery⟩ := hA
    have hls : List.Forall₂ (fun l l' => ρ l.1 l'.1 ∧ l.2.Like R l'.2) v.program.leaves
        v'.program.leaves := by
      simp only [ρ, ← hleaves, ← hleaves']
      exact hlike.numbered
    obtain ⟨hnext, hchanged, hmemory⟩ := hlike.runPass_initLabels hR hρ hls hdiscovery
    simp only [Stage.runAll, Stage.run]
    exact ⟨⟨hnext, (leaves_runPass_initLabels _).trans hleaves,
      (leaves_runPass_initLabels _).trans hleaves', hmemory⟩, hchanged⟩
  have hstart : A w [] w' [] :=
    ⟨h, rfl, rfl, ⟨fun key => .none, .nil, rfl, rfl⟩⟩
  rw [Stage.fst_go, Stage.fst_go, Stage.run_fixpoint, Stage.run_fixpoint]
  exact (iterate_lockstep (A := A) (fun hA => hA.1.context.hasErrors) hround
    (fun hA => ⟨hA.1.exhausted hR _, hA.2⟩) rounds false hstart).1.1

end Workspace

/-! ## Assembling -/

namespace Assembly

variable {program program' : Program} {diagnostics diagnostics' : Diagnostics}

/-- The stages do alike what is alike. -/
theorem like_finished (hR : Location.Matching R) (options : Options)
    (hprogram : program.root.Like R program'.root) (hdiagnostics : diagnostics.Like R diagnostics')
    (hnumbered : program.Numbered) (hnumbered' : program'.Numbered) :
    (finished options program diagnostics).Like R (finished options program' diagnostics') := by
  have hstart : (start options program diagnostics).Like R
      (start options program' diagnostics') :=
    ⟨hprogram, rfl, rfl, hdiagnostics, ⟨fun _ => .none, .none⟩⟩
  have hexpanded : (behindStage options program diagnostics 2).Like R
      (behindStage options program' diagnostics' 2) :=
    Stage.like_runStages hR (by cases options.branchExtend <;> decide) hstart
  have hstage : (Stage.pipeline options.branchExtend)[2]? =
      some (.fixpoint "label initialization" [.pass .initLabels]) := rfl
  have hdiscovered : (behindStage options program diagnostics 3).Like R
      (behindStage options program' diagnostics' 3) := by
    rw [behindStage_succ hstage, behindStage_succ hstage]
    exact hexpanded.discovery hR (numbered_behindStage hnumbered 2)
      (numbered_behindStage hnumbered' 2) _ _
  rw [finished, finished, ← List.take_append_drop 3 (Stage.pipeline options.branchExtend),
    runStages_append, runStages_append]
  exact Stage.like_runStages hR (by cases options.branchExtend <;> decide) hdiscovered

/-- **Assembling does not look at nesting, numbers and places.** Programs with like leaves, in which
numbers tell nodes apart, become the same bytes and the same environment, and the same faults
and warnings are found in the same order, at related places. -/
theorem like_ofProgram (hR : Location.Matching R) (options : Options)
    (hprogram : program.root.Like R program'.root) (hdiagnostics : diagnostics.Like R diagnostics')
    (hnumbered : program.Numbered) (hnumbered' : program'.Numbered) :
    (ofProgram options program diagnostics).image =
        (ofProgram options program' diagnostics').image ∧
      (ofProgram options program diagnostics).environment =
        (ofProgram options program' diagnostics').environment ∧
      (ofProgram options program diagnostics).diagnostics.Like R
        (ofProgram options program' diagnostics').diagnostics := by
  obtain ⟨hlike, himage⟩ :=
    (like_finished hR options hprogram hdiagnostics hnumbered hnumbered').emit hR
  exact ⟨himage, hlike.context.env, hlike.context.diagnostics⟩

end Assembly
end Assembler6502
