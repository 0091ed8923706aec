import Assembler6502.Proofs.Bindings
import Assembler6502.Proofs.Written

/-!
# Branches behind the expansion of macros

The body of a macro is made of statements of the program, and an expansion adds scopes and labels to
them. So expanding macros makes no branch, and what the passes behind it leave of instructions is
extensible if the instructions were. When encodings are selected, every branch of a program that
was written with extensible instructions has a target and can be replaced.

## Main definitions

* `Item.Framing`, `MacroTable.opening`: the items around a body
* `MacroTable.Written`, `Workspace.Written`: macros and programs whose items have a property

## Main results

* `MacroTable.expand_of_get?`, `MacroTable.Written.expand`: what a call stands for
* `Workspace.written_defineMacros`, `Workspace.written_expandMacros`: the passes on macros
* `Assembly.extensible_selected`: instructions are extensible when encodings are selected
-/

namespace Assembler6502

/-! ## Macros -/

theorem Fragment.Plain.moveTo {P : Item → Prop} {part : Fragment} (h : part.Plain P)
    (location : Location) : (part.moveTo location).Plain P := by
  obtain ⟨st, rfl, hst⟩ := h
  exact ⟨{ st with location }, rfl, hst⟩

/-- The items around a body, and what is left of a definition. -/
def Item.Framing : Item → Prop
  | .blank | .scopeBegin | .scopeEnd | .label _ _ => True
  | _ => False

theorem Item.Framing.coded {Q : Instruction → Prop} {item : Item} (h : item.Framing) :
    item.Coded Q := by
  cases item with
  | instruction i => cases h
  | _ => trivial

theorem Item.Framing.extensible {item : Item} (h : item.Framing) : item.Extensible := by
  cases item with
  | instruction i => cases h
  | _ => trivial

namespace MacroTable

/-- Every macro, and the one that is being defined, is made of statements whose items have a
property. -/
structure Written (P : Item → Prop) (t : MacroTable) : Prop where
  macros : ∀ name m, t.get? name = some m → ∀ part ∈ m.body, part.Plain P
  current : ∀ m, t.current = some m → ∀ part ∈ m.body, part.Plain P

variable {P : Item → Prop} {t : MacroTable}

theorem written_empty : ({} : MacroTable).Written P := by
  constructor
  · rintro name m ⟨⟩
  · rintro m ⟨⟩

theorem Written.define (h : t.Written P) (name : String) : (t.define name).1.Written P := by
  unfold MacroTable.define
  split
  · exact h
  · refine ⟨h.macros, ?_⟩
    rintro m ⟨⟩ part hpart
    cases hpart

theorem Written.capture (h : t.Written P) {part : Fragment} (hpart : part.Plain P) :
    (t.capture part).1.Written P := by
  unfold MacroTable.capture
  split
  · exact h
  · split
    · exact h
    · rename_i m hm
      refine ⟨h.macros, ?_⟩
      rintro m' ⟨⟩ other hother
      rcases List.mem_append.mp hother with hother | hother
      · exact h.current m hm other hother
      · rw [List.mem_singleton.mp hother]
        exact hpart

theorem Written.endDefine (h : t.Written P) : t.endDefine.1.Written P := by
  unfold MacroTable.endDefine
  split
  · exact h
  · rename_i m hm
    refine ⟨fun name m' hm' => ?_, fun m' hm' => by cases hm'⟩
    dsimp only [get?] at hm'
    split at hm'
    · exact h.macros name m' hm'
    · -- The macro that is closed enters the table; all others were there.
      rw [Table.get?_insert] at hm'
      split at hm'
      · obtain rfl := Option.some.inj hm'
        exact h.current m hm
      · exact h.macros name m' hm'

theorem Written.abandon (h : t.Written P) : t.abandon.1.Written P := by
  unfold MacroTable.abandon
  split
  · exact h
  · exact ⟨h.macros, fun m hm => by cases hm⟩

/-- The items before the body of a call. -/
def opening (arguments : List Expr) : List Item :=
  [.scopeBegin] ++ bindArguments 1 arguments ++ [.scopeBegin] ++ bindParameters 1 arguments.length

/-- What a call stands for is the body, between the items that open its scopes and those that close
them. -/
theorem expand_of_get? {t : MacroTable} {name : String} {m : Macro} (h : t.get? name = some m)
    (call : Location) (arguments : List Expr) :
    t.expand call name arguments =
      .ok ((opening arguments).map (Fragment.ofItem call) ++
        (m.body.map (fun part => part.moveTo (.expansion call part.location)) ++
          [.scopeEnd, .scopeEnd].map (Fragment.ofItem call))) := by
  simp only [expand, h, ← List.append_assoc]
  rfl

/-- The argument with number `n + i` is bound to its hidden name. -/
theorem mem_bindArguments {n : Nat} {arguments : List Expr} {item : Item} :
    item ∈ bindArguments n arguments ↔ ∃ i argument, arguments[i]? = some argument ∧
      item = .label (hiddenName (n + i)) argument := by
  induction arguments generalizing n with
  | nil => simp [bindArguments]
  | cons first rest ih =>
    rw [bindArguments, List.mem_cons, ih]
    constructor
    · rintro (rfl | ⟨i, argument, hi, rfl⟩)
      · exact ⟨0, first, rfl, rfl⟩
      · exact ⟨i + 1, argument, hi, by rw [Nat.add_right_comm, Nat.add_assoc]⟩
    · rintro ⟨i, argument, hi, rfl⟩
      cases i with
      | zero =>
        obtain rfl : first = argument := Option.some.inj hi
        exact .inl rfl
      | succ i => exact .inr ⟨i, argument, hi, by rw [Nat.add_right_comm, Nat.add_assoc]⟩

/-- The parameter with number `n + i` is bound to the hidden name of the argument. -/
theorem mem_bindParameters {n count : Nat} {item : Item} :
    item ∈ bindParameters n count ↔
      ∃ i < count, item = .label (parameterName (n + i)) (.symbol (hiddenName (n + i))) := by
  induction count generalizing n with
  | zero => simp [bindParameters]
  | succ count ih =>
    rw [bindParameters, List.mem_cons, ih]
    constructor
    · rintro (rfl | ⟨i, hi, rfl⟩)
      · exact ⟨0, Nat.zero_lt_succ _, rfl⟩
      · exact ⟨i + 1, Nat.succ_lt_succ hi, by rw [Nat.add_right_comm, Nat.add_assoc]⟩
    · rintro ⟨i, hi, rfl⟩
      cases i with
      | zero => exact .inl rfl
      | succ i =>
        exact .inr ⟨i, Nat.lt_of_succ_lt_succ hi, by rw [Nat.add_right_comm, Nat.add_assoc]⟩

theorem framing_opening {arguments : List Expr} {item : Item} (h : item ∈ opening arguments) :
    item.Framing := by
  simp only [opening, List.mem_append, List.mem_singleton, mem_bindArguments,
    mem_bindParameters] at h
  rcases h with ((rfl | ⟨_, _, _, rfl⟩) | rfl) | ⟨_, _, rfl⟩ <;> trivial

/-- **What a call stands for** has every property that the statements of the bodies and those around
them have. -/
theorem Written.expand (h : t.Written P) (hframing : ∀ item : Item, item.Framing → P item)
    (call : Location) (name : String) (arguments : List Expr) :
    Yields (fun parts => ∀ part ∈ parts, part.Plain P) (t.expand call name arguments) := by
  cases hm : t.get? name with
  | none =>
    rw [MacroTable.expand, hm]
    exact .error _
  | some m =>
    rw [expand_of_get? hm]
    refine .pure fun part hpart => ?_
    -- The opening, the body at the place of the call, and the closing.
    rcases List.mem_append.mp hpart with hpart | hpart
    · refine Fragment.plain_ofItem (fun item hitem => ?_) part hpart
      exact hframing item (framing_opening hitem)
    · rcases List.mem_append.mp hpart with hpart | hpart
      · obtain ⟨other, hother, rfl⟩ := List.mem_map.mp hpart
        exact (h.macros name m hm other hother).moveTo _
      · refine Fragment.plain_ofItem (fun item hitem => hframing item ?_) part hpart
        simp only [List.mem_cons, List.not_mem_nil, or_false, or_self] at hitem
        rw [hitem]
        trivial

end MacroTable

/-! ## The passes on macros -/

namespace Context

variable {c : Context} {st : Statement}

theorem macros_restart : c.restart.macros = c.macros := by
  unfold Context.restart
  dsimp only
  split <;> rfl

theorem macros_followStructure : (c.followStructure st).macros = c.macros := by
  obtain ⟨location, item⟩ := st
  cases item with
  | scopeEnd =>
    simp only [followStructure, followStructure?]
    split <;> rfl
  | _ => rfl

end Context

namespace Workspace

variable {P : Item → Prop} {μ : Type} {w : Workspace} {memory : μ} {visit : Visit μ}
  {close : Context → Context}

/-- Every item of the program and of the macros has a property. -/
structure Written (P : Item → Prop) (w : Workspace) : Prop where
  leaves : ∀ l ∈ w.program.leaves, P l.2.item
  macros : w.context.macros.Written P

/-- What every visit keeps of macros and leaves of statements, a sweep does. -/
theorem Written.sweep (h : w.Written P)
    (hvisit : ∀ s id st, s.context.macros.Written P → P st.item →
      (visit s id st).1.context.macros.Written P ∧ (visit s id st).2.Written P)
    (hclose : ∀ c, c.macros.Written P → (close c).macros.Written P) :
    (w.sweep memory visit close).1.Written P := by
  -- The table has the property all the way, so every visit leaves statements that have it.
  obtain ⟨hend, hall⟩ := foldl_invariant (f := visit.step) (s := w.opening memory)
    (l := w.program.leaves) (P := fun s : Sweep μ => s.context.macros.Written P)
    (by rw [opening, Context.macros_restart]; exact h.macros)
    fun x hx hs => (hvisit x.1 x.2.1 x.2.2 hs (h.leaves x.2 (mem_of_mem_reached hx))).1
  constructor
  · intro l hl
    rw [leaves_sweep] at hl
    obtain ⟨x, hx, hl⟩ := List.mem_flatMap.mp hl
    have hitem := h.leaves x.2 (mem_of_mem_reached hx)
    exact (hvisit x.1 x.2.1 x.2.2 (hall x hx) hitem).2 l hl
  · rw [Workspace.sweep_eq, Context.macros_restart]
    exact hclose _ hend

theorem written_withMacros {s : Sweep μ} {location : Location}
    {change : MacroTable → MacroTable × Except MacroError Unit}
    (h : (change s.context.macros).1.Written P) :
    (Pass.withMacros s location change).context.macros.Written P := by
  unfold Pass.withMacros
  dsimp only
  split <;> exact h

/-- Taking definitions out of a program leaves blanks. -/
theorem written_defineMacros (h : w.Written P) (hblank : P .blank) :
    (w.sweep false Pass.defineMacros Pass.closeDefinition).1.Written P := by
  refine h.sweep (fun s id st hs hst => ?_) fun c hc => ?_
  · have hblank : (Node.leaf id { st with item := .blank }).Written P := Node.written_leaf hblank
    have hleaf : (Node.leaf id st).Written P := Node.written_leaf hst
    simp only [Pass.defineMacros]
    split
    · split
      · exact ⟨hs, hleaf⟩
      · exact ⟨written_withMacros (hs.define _), hblank⟩
    · split
      · exact ⟨written_withMacros hs.endDefine, hblank⟩
      · split <;> exact ⟨hs, hleaf⟩
    · split
      · exact ⟨written_withMacros (hs.capture ⟨st, rfl, hst⟩), hblank⟩
      · refine ⟨?_, hleaf⟩
        rw [Sweep.context_mapContext, Context.macros_followStructure]
        exact hs
  · unfold Pass.closeDefinition
    dsimp only
    split <;> exact hc.abandon

/-- Putting expansions into a program. -/
theorem written_expandMacros (h : w.Written P) (hframing : ∀ item : Item, item.Framing → P item) :
    (w.sweep () Pass.expandMacros id).1.Written P := by
  refine h.sweep (fun s id st hs hst => ?_) fun c hc => hc
  simp only [Pass.expandMacros]
  split
  · rename_i name arguments _
    split
    · rename_i parts hparts
      refine ⟨hs, Node.written_sequence ?_⟩
      exact Node.written_ofFragments (hs.expand hframing _ _ _ parts hparts) _
    · exact ⟨hs, Node.written_leaf (hframing .blank trivial)⟩
  · refine ⟨?_, Node.written_leaf hst⟩
    rw [Sweep.context_mapContext, Context.macros_followStructure]
    exact hs

theorem endures_written : Stage.Endures (Written P) := fun _ _ h => ⟨h.leaves, h.macros⟩

/-! ## The passes behind them -/

/-- **Faithful passes keep what recoding keeps** of instructions. -/
theorem coded_sweep {Q : Instruction → Prop} (hQ : ∀ i j : Instruction, i.Recodes j → Q i → Q j)
    (hv : visit.Faithful) (h : ∀ l ∈ w.program.leaves, l.2.item.Coded Q) :
    ∀ l ∈ (w.sweep memory visit id).1.program.leaves, l.2.item.Coded Q := by
  intro l hl
  rw [leaves_sweep] at hl
  obtain ⟨x, hx, hl⟩ := List.mem_flatMap.mp hl
  have hitem := h x.2 (mem_of_mem_reached hx)
  rcases hv.recodes x.1 x.2.1 x.2.2 with heq | ⟨i, hi, hall⟩
  · rw [heq] at hl
    rw [List.mem_singleton.mp hl]
    exact hitem
  · obtain ⟨j, hj, hrecodes⟩ := hall l hl
    rw [hi] at hitem
    rw [hj]
    exact hQ i j hrecodes hitem

theorem extensible_sweep (hv : visit.Faithful) (h : ∀ l ∈ w.program.leaves, l.2.item.Extensible) :
    ∀ l ∈ (w.sweep memory visit id).1.program.leaves, l.2.item.Extensible := by
  rw [Item.extensible_eq] at h ⊢
  exact coded_sweep (fun i j hij => hij.extensible) hv h

theorem extensible_runPass {kind : Pass.Kind} (hkind : kind ∉ [.defineMacros, .expandMacros, .emit])
    (d : Discovery) (h : ∀ l ∈ w.program.leaves, l.2.item.Extensible) :
    ∀ l ∈ (w.runPass kind d).1.program.leaves, l.2.item.Extensible :=
  kept_faithful (I := fun w : Workspace => ∀ l ∈ w.program.leaves, l.2.item.Extensible) hkind d
    (fun hv _ _ h => extensible_sweep hv h) h

end Workspace

namespace Assembly

variable {options : Options} {program : Program} {diagnostics : Diagnostics}

/-- What the items of a program have, and those around bodies, the items have when macros are
expanded. -/
theorem written_behindStage {P : Item → Prop} (hframing : ∀ item : Item, item.Framing → P item)
    (h : ∀ l ∈ program.leaves, P l.2.item) :
    (behindStage options program diagnostics 2).Written P := by
  have hkinds : Stage.kindsAll ((Stage.pipeline options.branchExtend).take 2) =
      [.defineMacros, .expandMacros] := rfl
  refine Stage.kept_runStages Workspace.endures_written (fun kind hkind w d hw => ?_)
    ⟨h, MacroTable.written_empty⟩
  refine Workspace.kept_runPass (fun hclean => ?_) hw
  rw [hkinds] at hkind
  simp only [List.mem_cons, List.not_mem_nil, or_false] at hkind
  rcases hkind with rfl | rfl
  · rw [Workspace.runPass_defineMacros hclean]
    exact Workspace.written_defineMacros hw (hframing .blank trivial)
  · rw [Workspace.runPass_of_visit Pass.visit?_expandMacros hclean]
    exact Workspace.written_expandMacros hw hframing

/-- **What recoding keeps** of the instructions of a program, they have in the end. -/
theorem coded_finished {Q : Instruction → Prop} (hQ : ∀ i j : Instruction, i.Recodes j → Q i → Q j)
    (h : ∀ l ∈ program.leaves, l.2.item.Coded Q) :
    ∀ l ∈ (finished options program diagnostics).program.leaves, l.2.item.Coded Q :=
  kept_behind_expansion (I := fun w : Workspace => ∀ l ∈ w.program.leaves, l.2.item.Coded Q)
    (fun _ _ h => h) (fun hv _ _ h => Workspace.coded_sweep hQ hv h)
    (written_behindStage (fun _ => Item.Framing.coded) h).leaves

/-- **When encodings are selected**, instructions are extensible if they were written so. -/
theorem extensible_selected (h : ∀ l ∈ program.leaves, l.2.item.Extensible) :
    ∀ l ∈ (selected options program diagnostics).program.leaves, l.2.item.Extensible := by
  have hpreparation : (Stage.pipeline options.branchExtend).take 2 ++ Stage.preparation.drop 2 =
      Stage.preparation := rfl
  have hselected : selected options program diagnostics =
      runStages (Stage.preparation.drop 2 ++ [Stage.selection options.branchExtend])
        (behindStage options program diagnostics 2) := by
    rw [runStages_append, behindStage, ← runStages_append (List.take 2 _), hpreparation]
    simp only [selected, runStages, List.foldl_cons, List.foldl_nil]
  have hkinds : ∀ kind ∈ Stage.kindsAll
      (Stage.preparation.drop 2 ++ [Stage.selection options.branchExtend]),
      kind ∉ [.defineMacros, .expandMacros, .emit] := by
    cases options.branchExtend <;> decide
  rw [hselected]
  exact Stage.kept_runStages (I := fun w : Workspace => ∀ l ∈ w.program.leaves, l.2.item.Extensible)
    (fun _ _ h => h) (fun kind hkind w d => Workspace.extensible_runPass (hkinds kind hkind) d)
    (written_behindStage (fun _ => Item.Framing.extensible) h).leaves

end Assembly
end Assembler6502
