import Assembler6502.Pass.Expansion
import Assembler6502.Proofs.Emission
import Assembler6502.Proofs.Recoding

/-!
# The passes are faithful

Every pass behind the expansion of macros recodes instructions and passes every statement. What it
does beyond that, like moving the program counter or writing bytes, is of no concern here; what
matters is which expressions it asks for a value: those of the statement, where it stands, and
distances from the program counter, which always have one.

## Main results

* `Pass.inPlace_initLabels`, `Pass.inPlace_checkExpressions`, `Pass.inPlace_updateLabels`: the
  passes that resolve labels
* `Pass.inPlace_easyModes`, `Pass.inPlace_collapse`, `Pass.faithful_extendBranches`: the passes that
  select encodings
* `Pass.inPlace_emit`: the last pass
-/

namespace Assembler6502
namespace Pass

variable {μ : Type} {P : Fault → Prop}

/-! ## Macros -/

theorem moves_withMacros {binds : Prop} {item : Item} {s : Sweep μ} {location : Location}
    {change : MacroTable → MacroTable × Except MacroError Unit}
    (hchange : (change s.context.macros).2 ≠ .error .notDefining) :
    Context.Moves binds Fault.Ordinary item s.context
      (withMacros s location change).context := by
  unfold withMacros
  dsimp only
  split
  · exact ⟨rfl, .inl rfl, .refl _ s.context⟩
  · rename_i e he
    rw [he] at hchange
    refine ⟨rfl, .inl rfl, .error (c := { s.context with macros := _ }) ?_⟩
    cases e with
    | notDefining => exact absurd rfl hchange
    | _ => trivial

/-- A statement is captured only where a definition is open. -/
theorem ordinary_defineMacros : Visit.Ordinary False defineMacros := by
  intro s id st
  simp only [defineMacros]
  split
  · split
    · exact (Context.Reports.error trivial).moves
    · refine moves_withMacros ?_
      unfold MacroTable.define
      split
      · simp
      · dsimp only
        split <;> simp
  · split
    · refine moves_withMacros ?_
      unfold MacroTable.endDefine
      split <;> simp
    · split
      · exact (Context.Reports.refl _ _).moves
      · exact (Context.Reports.error trivial).moves
  · split
    · rename_i hdefining
      refine moves_withMacros ?_
      obtain ⟨m, hm⟩ := Option.isSome_iff_exists.mp hdefining
      unfold MacroTable.capture
      split
      · simp
      · simp [hm]
    · exact (Context.passes_followStructure trivial _ _).toMoves

theorem reports_closeDefinition (c : Context) :
    Context.Reports Fault.Ordinary c (closeDefinition c) := by
  unfold closeDefinition MacroTable.abandon
  cases c.macros.current with
  | none => exact .refl _ c
  | some m => exact ⟨rfl, rfl, .error (c := { c with macros := _ }) trivial⟩

theorem ordinary_expandMacros : Visit.Ordinary False expandMacros := by
  intro s id st
  simp only [expandMacros]
  split
  · rename_i name arguments _
    unfold MacroTable.expand
    -- The only fault of a call is that there is no such macro.
    cases s.context.macros.get? name with
    | none => exact (Context.Reports.error trivial).moves
    | some m => exact (Context.Reports.refl _ _).moves
  · exact (Context.passes_followStructure trivial _ _).toMoves

/-! ## Resolution of labels -/

theorem reports_noteDefinition (s : Sweep Discovery) (id : Nat) (location : Location)
    (symbol : Symbol) (h : ∀ e, P (.symbol e)) :
    Sweep.Reports P s (noteDefinition s id location symbol) := by
  unfold noteDefinition
  dsimp only
  split
  · exact ⟨.refl P _, rfl⟩
  · split
    · exact .refl P s
    · exact ⟨.error (h _), rfl⟩

theorem passes_bindIfValid (s : Sweep Discovery) (symbol : Symbol) (value : Expr) :
    Sweep.Passes True P (.label symbol value) s (bindIfValid s symbol value) := by
  unfold bindIfValid
  dsimp only
  split
  · exact ⟨(Context.Reports.refl P _).passes_bind symbol value 0, rfl⟩
  · exact (Sweep.Reports.refl P s).passes_self fun _ => rfl

theorem reports_warnOfName (P : Fault → Prop) (s : Sweep Discovery) (location : Location)
    (symbol : Symbol) : Sweep.Reports P s (warnOfName s location symbol) := by
  unfold warnOfName
  split
  · split
    · exact ⟨.warn P _ _ _, rfl⟩
    · exact .refl P s
  · exact .refl P s

theorem inPlace_initLabels : Visit.InPlace True (fun _ => Fault.Ordinary) initLabels := by
  refine .observe fun s id st => ?_
  obtain ⟨location, item⟩ := st
  cases item with
  | setPc target | advance target fill =>
    exact ⟨(Context.Reports.refl _ _).passes_self fun _ => rfl, rfl⟩
  | label symbol value =>
    -- A second definition is a fault, and the name of a label may be worth a warning.
    have hnote := reports_noteDefinition s id location symbol
      (P := s.context.Finds Fault.Ordinary (.label symbol value)) fun _ => trivial
    have hbind := passes_bindIfValid (P := s.context.Finds Fault.Ordinary (.label symbol value))
      (noteDefinition s id location symbol) symbol value
    have hwarn := reports_warnOfName (s.context.Finds Fault.Ordinary (.label symbol value))
      (bindIfValid (noteDefinition s id location symbol) symbol value) location symbol
    exact ⟨(hnote.toReports.trans_passes hbind.toPasses).trans_reports hwarn.toReports,
      hwarn.size.trans (hbind.size.trans hnote.size)⟩
  | _ => exact ⟨Context.passes_followStructure trivial _ _, rfl⟩

theorem reports_checkTarget (s : Sweep Bool) (st : Statement) (target : Expr) (what : String)
    (h : ∀ e, P (.symbol e)) : Sweep.Reports P s (checkTarget s st target what) := by
  unfold checkTarget
  dsimp only
  split
  · exact ⟨.refl P _, rfl⟩
  · exact ⟨.error (h _), rfl⟩

theorem inPlace_checkCircularity :
    Visit.InPlace False (fun _ => Fault.Ordinary) checkCircularity := by
  refine .observe fun s id st => ?_
  obtain ⟨location, item⟩ := st
  cases item with
  | setPc target | advance target fill =>
    exact (reports_checkTarget s _ target _ fun _ => trivial).passes_self fun _ => rfl
  | checkPc target | label symbol value =>
    dsimp only
    split
    · exact (Sweep.Reports.refl _ s).passes_self fun _ => rfl
    · exact (Sweep.Reports.error trivial).passes_self fun _ => rfl
  | _ => exact ⟨Context.passes_followStructure trivial _ _, rfl⟩

/-- Trying expressions only adds faults. -/
theorem reports_checkExpressions {c : Context} {location : Location} {es : List Expr}
    (h : ∀ e ∈ es, ∀ err, c.evaluate e = .error err → P (.evaluation err)) :
    Context.Reports P c (es.foldl (checkExpression location) c) := by
  induction es generalizing c with
  | nil => exact .refl P c
  | cons e rest ih =>
    have hfirst : Context.Reports P c (checkExpression location c e) := by
      unfold checkExpression
      split
      · exact .refl P c
      · rename_i err herr
        exact .error (h e List.mem_cons_self err herr)
    -- A fault changes no label, so the other expressions evaluate as before.
    refine hfirst.trans (ih fun e' he' err herr => ?_)
    rw [hfirst.evaluate_eq] at herr
    exact h e' (List.mem_cons_of_mem _ he') err herr

theorem follow_of_followStructure? {c : Context} {st : Statement}
    (h : c.followStructure? st = none) (σ : Surroundings) : σ.follow st.item = σ := by
  obtain ⟨location, item⟩ := st
  cases item with
  | scopeBegin | textSegment | dataSegment => cases h
  | scopeEnd =>
    simp only [Context.followStructure?] at h
    split at h <;> cases h
  | _ => rfl

theorem inPlace_checkExpressions :
    Visit.InPlace False (fun _ => Fault.Ordinary) checkExpressions := by
  refine .observe fun s id st => ⟨?_, rfl⟩
  simp only [Sweep.context_mapContext]
  split
  · rename_i c hc
    have hstructure : s.context.followStructure st = c := by
      rw [Context.followStructure, hc]
      rfl
    rw [← hstructure]
    exact Context.passes_followStructure trivial _ _
  · rename_i hc
    exact (reports_checkExpressions fun e he _ herr => ⟨e, he, herr⟩).passes_self
      (follow_of_followStructure? hc)

theorem inPlace_updateLabels : Visit.InPlace True (fun _ => Fault.Ordinary) updateLabels := by
  refine .observe fun s id st => ?_
  obtain ⟨location, item⟩ := st
  cases item with
  | label symbol value =>
    have hvalue : Context.Reports (s.context.Finds Fault.Ordinary (.label symbol value)) s.context
        (s.context.valueOf location value).2 :=
      .valueOf fun _ herr => ⟨value, List.mem_cons_self, herr⟩
    dsimp only
    split <;> exact ⟨hvalue.passes_bind symbol value _, rfl⟩
  | _ => exact ⟨Context.passes_follow trivial fun e he _ herr => ⟨e, he, herr⟩, rfl⟩

/-! ## Selection of encodings -/

theorem reports_operandValue {s : Sweep μ} {location : Location} {i : Instruction}
    (h : ∀ e ∈ i.operand.toList, ∀ err, s.context.evaluate e = .error err →
      P (.evaluation err)) : Sweep.Reports P s (operandValue s location i).2 := by
  unfold operandValue
  split
  · rename_i e he
    exact .valueOf (h e (by simp [he]))
  · exact .refl P s

theorem reports_resized? {s : Sweep μ} {location : Location} {i : Instruction}
    (h : ∀ e ∈ i.operand.toList, ∀ err, s.context.evaluate e = .error err →
      P (.evaluation err)) : Sweep.Reports P s (resized? s location i).2 := by
  unfold resized?
  split
  · exact reports_operandValue h
  · exact .refl P s

theorem resizes_resized? {s : Sweep μ} {location : Location} {i j : Instruction}
    (h : (resized? s location i).1 = some j) : i.Resizes j := by
  unfold resized? at h
  split at h
  · rcases Option.or_eq_some_iff.mp h with hj | ⟨-, hj⟩
    · exact Instruction.resizes_of_narrowed? hj
    · exact Instruction.resizes_of_widened? hj
  · cases h

theorem inPlace_easyModes : Visit.InPlace False (fun _ => Fault.Ordinary) easyModes := by
  refine ⟨fun s id st => ?_, fun s id st => ?_⟩
  · obtain ⟨location, item⟩ := st
    cases item with
    | instruction i =>
      have hself : Sweep.Passes False (s.context.Finds Fault.Ordinary (.instruction i))
          (.instruction i) s s := (Sweep.Reports.refl _ s).passes_self fun _ => rfl
      simp only [easyModes]
      split
      · exact hself
      · split
        · exact hself
        · split
          · exact (reports_operandValue fun e he _ herr => ⟨e, he, herr⟩).passes_self
              fun _ => rfl
          · exact hself
    | _ => exact ⟨Context.passes_followStructure trivial _ _, rfl⟩
  · obtain ⟨location, item⟩ := st
    cases item with
    | instruction i =>
      simp only [easyModes]
      split
      · exact .inl rfl
      · rename_i shape hpending
        split
        · rename_i mode hmode
          exact .inr ⟨i, _, rfl, Instruction.recodes_branchMode hmode, rfl⟩
        · split
          · -- A constant operand settles the mode: narrow if that fits, and absolute otherwise.
            refine .inr ⟨i, _, rfl, ?_, rfl⟩
            cases hn : i.narrowed? s.context.cpu (operandValue s location i).1 with
            | none =>
              exact Instruction.recodes_inMode (Instruction.absolute_ne_relative shape)
                (by simp [hpending])
            | some j => exact (Instruction.resizes_of_narrowed? hn).recodes
          · exact .inl rfl
    | _ => exact .inl rfl

theorem inPlace_collapse : Visit.InPlace False (fun _ => Fault.Ordinary) collapse := by
  refine ⟨fun s id st => ?_, fun s id st => ?_⟩
  · obtain ⟨location, item⟩ := st
    cases item with
    | instruction i =>
      have hresized : Sweep.Reports (s.context.Finds Fault.Ordinary (.instruction i)) s
          (resized? s location i).2 := reports_resized? fun e he _ herr => ⟨e, he, herr⟩
      simp only [collapse]
      split <;> rename_i hs' <;> rw [hs'] at hresized <;>
        exact ⟨hresized.toReports.passes_advancePc (fun _ => rfl) _, hresized.size⟩
    | _ => exact ⟨Context.passes_follow trivial fun e he _ herr => ⟨e, he, herr⟩, rfl⟩
  · obtain ⟨location, item⟩ := st
    cases item with
    | instruction i =>
      simp only [collapse]
      split
      · exact .inl rfl
      · rename_i j s' hs'
        have hresizes : i.Resizes j := resizes_resized? (congrArg Prod.fst hs')
        exact .inr ⟨i, j, rfl, hresizes.recodes, rfl⟩
    | _ => exact .inl rfl

theorem inPlace_normalizeModes :
    Visit.InPlace False (fun _ => Fault.Ordinary) normalizeModes := by
  refine ⟨fun s id st => ?_, fun s id st => ?_⟩
  · obtain ⟨location, item⟩ := st
    cases item with
    | instruction i =>
      simp only [normalizeModes]
      split <;> exact (Sweep.Reports.refl _ s).passes_self fun _ => rfl
    | _ => exact ⟨Context.passes_followStructure trivial _ _, rfl⟩
  · obtain ⟨location, item⟩ := st
    cases item with
    | instruction i =>
      simp only [normalizeModes]
      split
      · exact .inl rfl
      · rename_i shape hpending
        exact .inr ⟨i, _, rfl, Instruction.recodes_inMode (Instruction.absolute_ne_relative shape)
          (by simp [hpending]), rfl⟩
    | _ => exact .inl rfl

/-! ## Extension of branches -/

/-- The opposite branch is passed, or refused. -/
theorem passes_skip {m inverse : Mnemonic} (hinv : m.inverse? = some inverse) (s : Sweep Unit)
    (id : Nat) (st : Statement) (hP : ∀ m, P (.pass (.endlessExtension m))) :
    Context.Passes False P (.instruction (skippingBranch inverse)) s.context
      (extendBranch none s id (inPlace st (skippingBranch inverse))).1.context := by
  have hvalue : Context.Reports P s.context (s.context.valueOf st.location (.pcPlus 5)).2 :=
    .valueOf fun err herr => by cases herr
  by_cases hreach : s.Reaches st.location (.pcPlus 5)
  · rw [extendBranch_reaching branch?_skippingBranch hreach]
    exact hvalue.passes_advancePc (fun _ => rfl) 2
  · rw [extendBranch_conditional branch?_skippingBranch (Mnemonic.inverse?_inverse? hinv) hreach]
    exact ((hvalue.trans (.warn P _ _ _)).trans (.error (hP _))).passes_self fun _ => rfl

theorem passes_extendBranches (s : Sweep Unit) (id : Nat) (st : Statement) :
    Context.Passes False (s.context.Finds Fault.Ordinary st.item) st.item s.context
      (extendBranches s id st).1.context := by
  rcases extendBranches_cases s id st with
    ⟨-, heq⟩ | ⟨m, target, hb, ⟨-, heq⟩ | ⟨hfar, rfl | ⟨inverse, hinv⟩⟩⟩
  · rw [heq]
    exact Context.passes_follow trivial fun e he _ herr => ⟨e, he, herr⟩
  all_goals
    have hitem := Item.branch?_eq_some.mp hb
    have hvalue : Context.Reports (s.context.Finds Fault.Ordinary st.item) s.context
        (s.context.valueOf st.location target).2 :=
      .valueOf fun _ herr =>
        ⟨target, by simp [hitem, Item.expressions, Instruction.resolved], herr⟩
    have hfollow (σ : Surroundings) : σ.follow st.item = σ := by rw [hitem]; rfl
  · rw [heq]
    exact hvalue.passes_advancePc hfollow 2
  · rw [extendBranches, extendBranch_always hb hfar]
    exact (hvalue.trans (.warn _ _ _ _)).passes_advancePc hfollow _
  · rw [extendBranches, extendBranch_conditional hb hinv hfar]
    simp only [replaceBySkip, extendBranch_other branch?_jumpTo, Sweep.context_mapContext]
    -- First the opposite branch is passed, and then the jump.
    have hskip := (hvalue.trans (.warn _ _ st.location (.branchExtended m inverse))).trans_passes
      (passes_skip hinv
        { ((s.valueOf st.location target).2.warn st.location
            (.branchExtended m inverse)).setChanged with size := s.size + 2 } s.size st
        fun _ => trivial)
    have hjump (c : Context) : c.follow (inPlace st (jumpTo target)) =
        c.mapEnv (·.advancePc 3) := rfl
    rw [hjump]
    exact hskip.trans (fun _ => rfl) ((Context.Reports.refl _ _).passes_advancePc hfollow 3)

theorem recodes_leaf {id : Nat} {st : Statement} {i j : Instruction}
    (hitem : st.item = .instruction j) (h : i.Recodes j) :
    ∀ l ∈ (Node.leaf id st).leaves, ∃ j, l.2.item = .instruction j ∧ i.Recodes j := by
  intro l hl
  rw [List.mem_singleton.mp hl]
  exact ⟨j, hitem, h⟩

theorem faithful_extendBranches : Visit.Faithful extendBranches := by
  refine ⟨fun s id st => (passes_extendBranches s id st).mono False.elim fun _ hfault =>
    hfault.mono fun _ _ => trivial, fun s id st => ?_⟩
  rcases extendBranches_cases s id st with
    ⟨-, heq⟩ | ⟨m, target, hb, ⟨-, heq⟩ | ⟨hfar, rfl | ⟨inverse, hinv⟩⟩⟩
  · rw [heq]
    exact .inl rfl
  · rw [heq]
    exact .inl rfl
  · rw [(extendBranches_always hb hfar).1]
    exact .inr ⟨_, Item.branch?_eq_some.mp hb,
      recodes_leaf rfl Instruction.recodes_jumpTo⟩
  · rw [(extendBranches_conditional hb hinv hfar).1]
    refine .inr ⟨_, Item.branch?_eq_some.mp hb, fun l hl => ?_⟩
    simp only [Node.leaves, Node.leavesAll, List.append_nil, List.cons_append, List.nil_append,
      List.mem_cons, List.not_mem_nil, or_false] at hl
    rcases hl with rfl | rfl
    · exact ⟨_, rfl, Instruction.recodes_skippingBranch hinv⟩
    · exact ⟨_, rfl, Instruction.recodes_jumpTo⟩

theorem ordinary_extendBranches : Visit.Ordinary False extendBranches := fun s id st =>
  (passes_extendBranches s id st).toMoves.mono False.elim fun _ hfault => hfault.ordinary

end Pass

/-! ## Emission -/

/-- The items that can be written: those of the definitions and calls of macros cannot, and neither
can instructions whose mode is open. -/
def Item.Emittable : Item → Prop
  | .instruction i => ∃ mode, i.addressing = .resolved mode
  | .macroBegin _ | .macroEnd | .invoke _ _ => False
  | _ => True

namespace Pass

variable {P : Fault → Prop} {s : Sweep Image} {location : Location} {e : Expr}
  (hP : ∀ err : EmissionError, (Fault.emission err).Ordinary → P (.emission err))

include hP

theorem reports_write (s : Sweep Image) (location : Location) (bytes : List UInt8) :
    Sweep.Reports P s (write s location bytes) := by
  unfold write
  split
  · exact ⟨.refl P _, rfl⟩
  · exact .error (hP _ trivial)

theorem reports_checkedValue {width : Width}
    (h : ∀ err, s.context.evaluate e = .error err → P (.evaluation err)) :
    Sweep.Reports P s (checkedValue s location width e).2 := by
  have hvalue : Sweep.Reports P s (s.valueOf location e).2 := .valueOf h
  simp only [checkedValue]
  split
  · exact hvalue
  · exact hvalue.trans (.error (hP _ trivial))

theorem reports_emitValue {width : Width} {endian : Endian}
    (h : ∀ err, s.context.evaluate e = .error err → P (.evaluation err)) :
    Sweep.Reports P s (emitValue s location width endian e) :=
  (reports_checkedValue hP h).trans (reports_write hP _ _ _)

theorem reports_emitDisplacement {count : Nat} {low high : Value}
    (h : ∀ err, s.context.evaluate e = .error err → P (.evaluation err)) :
    Sweep.Reports P s (emitDisplacement s location count low high e) := by
  have hvalue : Sweep.Reports P s (s.valueOf location e).2 := .valueOf h
  simp only [emitDisplacement]
  split
  · exact hvalue.trans (reports_write hP _ _ _)
  · exact (hvalue.trans (.error (hP .branchOutOfRange trivial))).trans (reports_write hP _ _ _)

theorem reports_emitOperand {mode : Mode}
    (h : ∀ err, s.context.evaluate e = .error err → P (.evaluation err)) :
    Sweep.Reports P s (emitOperand s location mode e) := by
  unfold emitOperand
  split
  · exact reports_emitDisplacement hP h
  · exact reports_emitDisplacement hP h
  · split
    · exact .refl P s
    · exact reports_emitValue hP h
    · exact reports_emitValue hP h

theorem passes_emitInstruction {i : Instruction}
    (h : ∀ e ∈ i.operand.toList, ∀ err, s.context.evaluate e = .error err →
      P (.evaluation err))
    (hopen : ∀ m, ¬ (Item.instruction i).Emittable → P (.emission (.unresolvedMode m))) :
    Sweep.Passes False P (.instruction i) s (emitInstruction s location i) := by
  unfold emitInstruction
  split
  · rename_i shape hshape
    refine (Sweep.Reports.error (hopen _ ?_)).passes_self fun _ => rfl
    rintro ⟨mode, hmode⟩
    rw [hshape] at hmode
    cases hmode
  · rename_i mode _
    split
    · exact (Sweep.Reports.error (hP (.noSuchMode _ _) trivial)).passes_self fun _ => rfl
    · rename_i opcode _
      have hwrite := reports_write hP s location [opcode]
      cases hop : i.operand with
      | none => exact ⟨hwrite.toReports.passes_advancePc (fun _ => rfl) _, hwrite.size⟩
      | some e =>
        have hoperand : Sweep.Reports P (write s location [opcode])
            (emitOperand (write s location [opcode]) location mode e) := by
          apply reports_emitOperand hP
          intro err herr
          rw [hwrite.evaluate_eq] at herr
          exact h e (by simp [hop]) err herr
        have hboth := hwrite.trans hoperand
        exact ⟨hboth.toReports.passes_advancePc (fun _ => rfl) _, hboth.size⟩

theorem reports_foldl_emitValue {width : Width} {endian : Endian} {values : List Expr}
    (h : ∀ e ∈ values, ∀ err, s.context.evaluate e = .error err → P (.evaluation err)) :
    Sweep.Reports P s (values.foldl (fun s e => emitValue s location width endian e) s) := by
  induction values generalizing s with
  | nil => exact .refl P s
  | cons e rest ih =>
    have hfirst : Sweep.Reports P s (emitValue s location width endian e) :=
      reports_emitValue hP (h e List.mem_cons_self)
    refine hfirst.trans (ih fun e' he' err herr => ?_)
    rw [hfirst.evaluate_eq] at herr
    exact h e' (List.mem_cons_of_mem _ he') err herr

theorem passes_emitByteRange {offset length : Expr} {bytes : List UInt8}
    (h : ∀ e ∈ [offset, length], ∀ err, s.context.evaluate e = .error err →
      P (.evaluation err)) :
    Sweep.Passes False P (.byteRange offset length bytes) s
      (emitByteRange s location offset length bytes) := by
  have hoffset : Sweep.Reports P s (s.valueOf location offset).2 :=
    .valueOf (h offset (by simp))
  have hlength : Sweep.Reports P (s.valueOf location offset).2
      ((s.valueOf location offset).2.valueOf location length).2 := by
    apply Sweep.Reports.valueOf
    intro err herr
    rw [hoffset.evaluate_eq] at herr
    exact h length (by simp) err herr
  have hboth := hoffset.trans hlength
  simp only [emitByteRange]
  split
  · rename_i err herr
    -- A part of a file that does not exist is a fault of the statement, whatever is wrong with it.
    have hordinary : (Fault.emission err).Ordinary := by
      simp only [subrange] at herr
      repeat' split at herr
      all_goals cases herr <;> trivial
    exact (hboth.trans (.error (hP err hordinary))).passes_self fun _ => rfl
  · rename_i part _
    have hwrite := hboth.trans (reports_write hP _ location part)
    exact ⟨hwrite.toReports.passes_advancePc (fun _ => rfl) _, hwrite.size⟩

theorem passes_emitAdvance {target fill : Expr}
    (h : ∀ e ∈ [target, fill], ∀ err, s.context.evaluate e = .error err → P (.evaluation err)) :
    Sweep.Passes False P (.advance target fill) s (emitAdvance s location target fill) := by
  have htarget : Sweep.Reports P s (s.valueOf location target).2 := .valueOf (h target (by simp))
  have hfill : ∀ err, (s.valueOf location target).2.context.evaluate fill = .error err →
      P (.evaluation err) := by
    intro err herr
    rw [htarget.evaluate_eq] at herr
    exact h fill (by simp) err herr
  have hfault (err : EmissionError) (herr : (Fault.emission err).Ordinary) :
      Sweep.Reports P s ((s.valueOf location target).2.error location (.emission err)) :=
    htarget.trans (.error (hP err herr))
  simp only [emitAdvance]
  split
  · exact ⟨(hfault (.advanceBackwards _ _) trivial).toReports.passes_setPc (fun _ => rfl) _, rfl⟩
  · split
    · exact (hfault (.advancePastEnd _) trivial).passes_self fun _ => rfl
    · split
      · have hbyte : Sweep.Reports P s
            (checkedValue (s.valueOf location target).2 location .byte fill).2 :=
          htarget.trans (reports_checkedValue hP hfill)
        have hwrite (bytes : List UInt8) := hbyte.trans (reports_write hP _ location bytes)
        exact ⟨(hwrite _).toReports.passes_setPc (fun _ => rfl) _, (hwrite _).size⟩
      · exact ⟨htarget.toReports.passes_setPc (fun _ => rfl) _, rfl⟩

theorem reports_emitCheckPc {target : Expr}
    (h : ∀ err, s.context.evaluate target = .error err → P (.evaluation err)) :
    Sweep.Reports P s (emitCheckPc s location target) := by
  have htarget : Sweep.Reports P s (s.valueOf location target).2 := .valueOf h
  simp only [emitCheckPc]
  split
  · exact htarget.trans (.error (hP _ trivial))
  · exact htarget

omit hP

/-- **The last pass** finds ordinary faults in what can be written. -/
theorem inPlace_emit :
    Visit.InPlace False (fun item fault => item.Emittable → fault.Ordinary) emit := by
  refine .observe fun s id st => ?_
  have hP (err : EmissionError) (h : (Fault.emission err).Ordinary) :
      s.context.Finds (fun fault => st.item.Emittable → fault.Ordinary) st.item
        (.emission err) := fun _ => h
  obtain ⟨location, item⟩ := st
  cases item with
  | instruction i =>
    exact passes_emitInstruction hP (fun e he _ herr => ⟨e, he, herr⟩)
      fun m hopen hitem => absurd hitem hopen
  | data width endian values =>
    have hvalues : Sweep.Reports _ s
        (values.foldl (fun s e => emitValue s location width endian e) s) :=
      reports_foldl_emitValue hP fun e he _ herr => ⟨e, he, herr⟩
    exact ⟨hvalues.toReports.passes_advancePc (fun _ => rfl) _, hvalues.size⟩
  | byteRange offset length bytes =>
    exact passes_emitByteRange hP fun e he _ herr => ⟨e, he, herr⟩
  | label symbol value => exact (Sweep.Reports.refl _ s).passes_self fun _ => rfl
  | setPc target =>
    refine ⟨Context.Reports.passes_setPc (.valueOf fun _ herr => ?_) (fun _ => rfl) _, rfl⟩
    exact ⟨target, List.mem_cons_self, herr⟩
  | checkPc target =>
    exact (reports_emitCheckPc hP fun _ herr => ⟨target, List.mem_cons_self, herr⟩).passes_self
      fun _ => rfl
  | advance target fill => exact passes_emitAdvance hP fun e he _ herr => ⟨e, he, herr⟩
  | scopeEnd =>
    -- The last pass closes the scope itself, as following the statement does.
    have hpasses : Context.Passes False
        (s.context.Finds (fun fault => Item.scopeEnd.Emittable → fault.Ordinary) .scopeEnd)
        .scopeEnd s.context (s.context.followStructure ⟨location, .scopeEnd⟩) :=
      Context.passes_followStructure (fun _ => trivial) s.context ⟨location, .scopeEnd⟩
    refine ⟨?_, ?_⟩
    · cases hi : s.context.env.inner <;>
        simpa [Context.followStructure, Context.followStructure?, Environment.exitScope?, hi]
          using hpasses
    · cases hi : s.context.env.inner <;> simp [Context.followStructure?, Environment.exitScope?, hi]
  | macroBegin name | macroEnd | invoke name arguments =>
    exact (Sweep.Reports.error False.elim).passes_self fun _ => rfl
  | _ => exact ⟨Context.passes_followStructure (fun _ => trivial) s.context ⟨location, _⟩, rfl⟩

end Pass
end Assembler6502
