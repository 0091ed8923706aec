import Assembler6502.Proofs.Expansion
import Assembler6502.Proofs.Names
import Assembler6502.Proofs.Positions

/-!
# What takes the place of a call

A call of a macro is replaced by a sequence: two scopes are opened, in which the arguments and the
parameters are bound, the statements of the body follow, and both scopes are closed. Later passes
leave the statements around the body as they are, and what they make of the body stays between them.

The names of the arguments are hidden. A hidden name is defined behind the beginning of a scope,
where nothing but hidden names was defined before, and calls do not mention it. This is the case
for every expansion, and so it is for a program in which macros are expanded.

## Main definitions

* `Node.Frame`: the nodes around a body
* `Item.Orderly`, `Orderly`: hidden names are defined at the beginning of a scope, and not mentioned

## Main results

* `Assembly.call_expanded`, `Assembly.call_finished`, `Assembly.call_entries`: what is in the place
  of a call later on
* `Assembly.orderly_finished`: hidden names in the end
-/

namespace Assembler6502

/-! ## Children of a node -/

namespace Node

section Traverse

variable {σ : Type} (visit : σ → Nat → Statement → σ × Node)

theorem traverseAll_append (s : σ) (ns ms : List Node) :
    (traverseAll visit s (ns ++ ms)).2 =
      (traverseAll visit s ns).2 ++ (traverseAll visit (traverseAll visit s ns).1 ms).2 := by
  induction ns generalizing s with
  | nil => rfl
  | cons n ns ih => simp only [List.cons_append, traverseAll, ih]

theorem length_traverseAll (s : σ) (ns : List Node) :
    (traverseAll visit s ns).2.length = ns.length := by
  induction ns generalizing s with
  | nil => rfl
  | cons n ns ih => simp only [traverseAll, List.length_cons, ih]

end Traverse

theorem ofFragments_append (size : Nat) (ps qs : List Fragment) :
    (ofFragments size (ps ++ qs)).1 =
      (ofFragments size ps).1 ++ (ofFragments (ofFragments size ps).2 qs).1 := by
  induction ps generalizing size with
  | nil => rfl
  | cons p ps ih => simp only [List.cons_append, ofFragments, ih]

theorem length_ofFragments (size : Nat) (ps : List Fragment) :
    (ofFragments size ps).1.length = ps.length := by
  induction ps generalizing size with
  | nil => rfl
  | cons p ps ih => simp only [ofFragments, List.length_cons, ih]

theorem leavesAll_ofFragments (size : Nat) (sts : List Statement) :
    (leavesAll (ofFragments size (sts.map .statement)).1).map (·.2) = sts := by
  induction sts generalizing size with
  | nil => rfl
  | cons st sts ih =>
    simp only [List.map_cons, ofFragments, ofFragment, leavesAll, leaves, List.cons_append,
      List.nil_append, ih]

end Node

/-! ## The frame of a body -/

namespace MacroTable

theorem length_bindArguments (n : Nat) (arguments : List Expr) :
    (bindArguments n arguments).length = arguments.length := by
  induction arguments generalizing n with
  | nil => rfl
  | cons first rest ih => simp only [bindArguments, List.length_cons, ih]

theorem length_bindParameters (n count : Nat) : (bindParameters n count).length = count := by
  induction count generalizing n with
  | zero => rfl
  | succ count ih => simp only [bindParameters, List.length_cons, ih]

/-- Where a part of a body stands among the nodes that a call with so many arguments is replaced by:
behind the statements that open two scopes, those of the arguments and those of the parameters. -/
def bodyPlace (arguments part : Nat) : Nat :=
  2 + 2 * arguments + part

theorem length_opening (arguments : List Expr) :
    (opening arguments).length = bodyPlace arguments.length 0 := by
  simp only [bodyPlace, opening, List.length_append, List.length_cons, List.length_nil,
    length_bindArguments, length_bindParameters]
  omega

end MacroTable

theorem forall_of_items {P : Item → Prop} {leaves : List (Nat × Statement)} {items : List Item}
    (h : leaves.map (·.2.item) = items) (hP : ∀ item ∈ items, P item) :
    ∀ l ∈ leaves, P l.2.item := by
  subst h
  exact fun l hl => hP _ (List.mem_map_of_mem (f := fun l : Nat × Statement => l.2.item) hl)

/-- The nodes before a body and behind it. -/
structure Node.Frame (arguments : List Expr) (before behind : List Node) : Prop where
  before_items : (leavesAll before).map (·.2.item) = MacroTable.opening arguments
  behind_items : (leavesAll behind).map (·.2.item) = [.scopeEnd, .scopeEnd]
  before_length : before.length = MacroTable.bodyPlace arguments.length 0
  behind_length : behind.length = 2

theorem Node.Frame.bodyPlace_eq {arguments : List Expr} {before behind : List Node}
    (h : Frame arguments before behind) (part : Nat) :
    MacroTable.bodyPlace arguments.length part = before.length + part := by
  rw [h.before_length]
  rfl

theorem Node.leavesAll_ofItems (size : Nat) (location : Location) (items : List Item) :
    (leavesAll (ofFragments size (items.map (Fragment.ofItem location))).1).map (·.2.item) =
      items := by
  have hparts : items.map (Fragment.ofItem location) =
      (items.map (Statement.mk location)).map .statement := by
    rw [List.map_map]
    rfl
  have hleaves := congrArg (List.map Statement.item)
    (leavesAll_ofFragments size (items.map (Statement.mk location)))
  rw [← hparts, List.map_map, List.map_map] at hleaves
  exact hleaves.trans (List.map_id items)

theorem Node.frame_ofFragments (arguments : List Expr) (call : Location) (size size' : Nat) :
    Frame arguments
      (ofFragments size ((MacroTable.opening arguments).map (Fragment.ofItem call))).1
      (ofFragments size' ([Item.scopeEnd, .scopeEnd].map (Fragment.ofItem call))).1 where
  before_items := leavesAll_ofItems size call _
  behind_items := leavesAll_ofItems size' call _
  before_length := by rw [length_ofFragments, List.length_map, MacroTable.length_opening]
  behind_length := by rw [length_ofFragments]; rfl

theorem Node.Frame.framing {arguments : List Expr} {before behind : List Node}
    (h : Frame arguments before behind) :
    (∀ l ∈ leavesAll before, l.2.item.Framing) ∧ ∀ l ∈ leavesAll behind, l.2.item.Framing := by
  refine ⟨forall_of_items h.before_items fun _ => MacroTable.framing_opening,
    forall_of_items h.behind_items fun item hitem => ?_⟩
  simp only [List.mem_cons, List.not_mem_nil, or_false, or_self] at hitem
  rw [hitem]
  trivial

/-- The pass returns the statements around bodies. -/
def Visit.Frames {μ : Type} (visit : Visit μ) : Prop :=
  ∀ s id st, st.item.Framing → (visit s id st).2 = .leaf id st

theorem Visit.Faithful.frames {μ : Type} {visit : Visit μ} (hv : visit.Faithful) :
    visit.Frames := by
  intro s id st hst
  rcases hv.recodes s id st with heq | ⟨i, hi, -⟩
  · exact heq
  · rw [hi] at hst
    cases hst

theorem Pass.frames_expandMacros : Visit.Frames expandMacros := by
  intro s id st hst
  obtain ⟨location, item⟩ := st
  cases item with
  | invoke name arguments => cases hst
  | _ => rfl

theorem Context.Adds.clean {P : Fault → Prop} {c d : Context} (h : Adds P c d)
    (hd : d.hasErrors = false) : c.hasErrors = false := by
  obtain ⟨added, herrors, -⟩ := h
  rw [hasErrors_eq_false] at hd ⊢
  rw [hd] at herrors
  exact (List.append_eq_nil_iff.mp herrors.symm).1

namespace Workspace

variable {μ : Type} {w : Workspace} {memory : μ} {visit : Visit μ} {close : Context → Context}
  {π : List Nat} {number count : Nat} {call : Location} {arguments : List Expr}
  {before behind : List Node}

/-- At a position there are so many nodes between given ones. -/
def HoldsCall (π : List Nat) (number : Nat) (call : Location) (before behind : List Node)
    (count : Nat) (w : Workspace) : Prop :=
  ∃ body, body.length = count ∧
    w.program.root.at? π = some (.sequence number call (before ++ (body ++ behind)))

/-- **The nodes around a body stay** as they are. -/
theorem HoldsCall.sweep (hv : visit.Frames) (hframe : Node.Frame arguments before behind)
    (h : w.HoldsCall π number call before behind count) :
    (w.sweep memory visit close).1.HoldsCall π number call before behind count := by
  obtain ⟨body, hcount, hat⟩ := h
  have hkept : ∀ {ns : List Node} (s : Sweep μ), (∀ l ∈ Node.leavesAll ns, l.2.item.Framing) →
      (Node.traverseAll visit s ns).2 = ns := fun s hns =>
    Node.traverseAll_eq_self visit s _ fun x hx => hv _ _ _ (hns x.2 (mem_of_mem_reached hx))
  rw [HoldsCall, at?_sweep hat]
  simp only [Node.traverse, Node.traverseAll_append, hkept _ hframe.framing.1,
    hkept _ hframe.framing.2]
  exact ⟨_, (Node.length_traverseAll visit _ body).trans hcount, rfl⟩

/-- Expanding macros leaves the macros alone. -/
theorem macros_expandMacros (w : Workspace) :
    (w.sweep () Pass.expandMacros id).1.context.macros = w.context.macros ∧
      ∀ x ∈ w.visits () Pass.expandMacros, x.1.context.macros = w.context.macros := by
  obtain ⟨hend, hall⟩ := foldl_invariant (f := Visit.step Pass.expandMacros) (s := w.opening ())
    (l := w.program.leaves) (P := fun s : Sweep Unit => s.context.macros = w.context.macros)
    (by rw [opening, Context.macros_restart]) fun x _ hx => by
      simp only [Visit.step, Pass.expandMacros]
      split
      · split <;> exact hx
      · rw [Sweep.context_mapContext, Context.macros_followStructure]
        exact hx
  refine ⟨?_, hall⟩
  rw [sweep_eq, Context.macros_restart]
  exact hend

/-- Where the expansion finds no fault there was none, and a call is one of a macro that is
defined. -/
theorem expandMacros_of_clean {s : Sweep Unit} {l : Nat × Statement}
    (h : (Visit.step Pass.expandMacros s l).context.hasErrors = false) :
    s.context.hasErrors = false ∧ ∀ name arguments, l.2.item = .invoke name arguments →
      ∃ m, s.context.macros.get? name = some m := by
  refine ⟨(Pass.ordinary_expandMacros s l.1 l.2).faults.clean h, fun name arguments hitem => ?_⟩
  cases hm : s.context.macros.get? name with
  | none => simp [Visit.step, Pass.expandMacros, hitem, MacroTable.expand, hm] at h
  | some m => exact ⟨m, rfl⟩

/-- **What takes the place of a call** that is expanded without a fault. -/
theorem at?_expandMacros {name : String}
    (hcall : w.program.root.at? π = some (.leaf number ⟨call, .invoke name arguments⟩))
    (hclean : (w.sweep () Pass.expandMacros id).1.Clean) :
    ∃ m before behind, w.context.macros.get? name = some m ∧
      Node.Frame arguments before behind ∧
      (w.sweep () Pass.expandMacros id).1.HoldsCall π number call before behind m.body.length := by
  have hmem : (w.stateAt () Pass.expandMacros π, number, ⟨call, .invoke name arguments⟩) ∈
      w.visits () Pass.expandMacros :=
    mem_visits hcall (by simp [Node.leaves])
  -- Faults are never taken back, so there was none behind the call, and the macro is known.
  have hvisit : (Visit.step Pass.expandMacros (w.stateAt () Pass.expandMacros π)
      (number, ⟨call, .invoke name arguments⟩)).context.hasErrors = false :=
    forall_reached_of_foldl (P := fun s : Sweep Unit => s.context.hasErrors = false)
      (fun _ _ hs => (expandMacros_of_clean hs).1)
      (Context.hasErrors_restart.mp (clean_sweep.mp hclean)).1 _ hmem
  obtain ⟨m, hm⟩ := (expandMacros_of_clean hvisit).2 name arguments rfl
  have hat : (w.sweep () Pass.expandMacros id).1.program.root.at? π =
      some (Pass.expandMacros (w.stateAt () Pass.expandMacros π) number
        ⟨call, .invoke name arguments⟩).2 := at?_sweep hcall
  simp only [Pass.expandMacros, MacroTable.expand_of_get? hm, Node.ofFragments_append] at hat
  refine ⟨m, _, _, ?_, Node.frame_ofFragments arguments call _ _, _, ?_, hat⟩
  · rw [← (macros_expandMacros w).2 _ hmem]
    exact hm
  · rw [Node.length_ofFragments, List.length_map]

end Workspace

/-! ## Hidden names -/

/-- Whether the innermost scope is fresh behind an item, that is, nothing but hidden names was
defined in it. Instructions do not count. -/
def Item.freshBehind (fresh : Bool) : Item → Bool
  | .scopeBegin => true
  | .label symbol _ => fresh && decide symbol.Hidden
  | .instruction _ => fresh
  | _ => false

/-- A hidden name is defined in a fresh scope, and a call mentions none. -/
def Item.Orderly (fresh : Bool) : Item → Prop
  | .label symbol _ => symbol.Hidden → fresh = true
  | .invoke _ arguments => ∀ argument ∈ arguments, argument.Visible
  | _ => True

theorem Item.Unhidden.orderly {item : Item} (h : item.Unhidden) (fresh : Bool) :
    item.Orderly fresh := by
  cases item with
  | label symbol value => exact fun hidden => absurd hidden h
  | invoke name arguments => exact h
  | _ => trivial

/-- Whether the innermost scope is fresh behind some statements. -/
def freshBehind (fresh : Bool) (leaves : List (Nat × Statement)) : Bool :=
  leaves.foldl (fun fresh l => l.2.item.freshBehind fresh) fresh

/-- All statements are orderly where they stand. -/
def Orderly (fresh : Bool) (leaves : List (Nat × Statement)) : Prop :=
  ∀ y ∈ reached (fun fresh l => l.2.item.freshBehind fresh) fresh leaves, y.2.2.item.Orderly y.1

section Orderly

variable {fresh : Bool} {l : Nat × Statement} {leaves more : List (Nat × Statement)}

theorem orderly_nil : Orderly fresh [] := by
  simp [Orderly]

theorem orderly_cons : Orderly fresh (l :: leaves) ↔
    l.2.item.Orderly fresh ∧ Orderly (l.2.item.freshBehind fresh) leaves := by
  simp only [Orderly, reached_cons, List.forall_mem_cons]

theorem orderly_append : Orderly fresh (leaves ++ more) ↔
    Orderly fresh leaves ∧ Orderly (freshBehind fresh leaves) more := by
  simp only [Orderly, reached_append, List.forall_mem_append]
  rfl

theorem Orderly.exists_of_mem (h : Orderly fresh leaves) (hl : l ∈ leaves) :
    ∃ fresh, l.2.item.Orderly fresh := by
  induction leaves generalizing fresh with
  | nil => cases hl
  | cons first rest ih =>
    rw [orderly_cons] at h
    rcases List.mem_cons.mp hl with rfl | hl
    · exact ⟨fresh, h.1⟩
    · exact ih h.2 hl

/-- Instructions do not matter. -/
theorem orderly_skeleton : Orderly fresh (skeleton leaves) ↔ Orderly fresh leaves := by
  have hstill : ∀ (fresh : Bool) (l : Nat × Statement), (!l.2.item.isInstruction) = false →
      l.2.item.freshBehind fresh = fresh := by
    intro fresh l hl
    obtain ⟨i, hi⟩ := Item.exists_instruction hl
    rw [hi]
    rfl
  simp only [Orderly, skeleton, mem_reached_filter hstill]
  refine ⟨fun h y hy => ?_, fun h y hy => h y hy.1⟩
  cases hy' : !y.2.2.item.isInstruction with
  | true => exact h y ⟨hy, hy'⟩
  | false =>
    obtain ⟨i, hi⟩ := Item.exists_instruction hy'
    rw [hi]
    trivial

theorem orderly_of_unhidden (h : ∀ l ∈ leaves, l.2.item.Unhidden) (fresh : Bool) :
    Orderly fresh leaves :=
  fun y hy => (h y.2 (mem_of_mem_reached hy)).orderly y.1

/-- Hidden names may be defined in a fresh scope, and leave it fresh. -/
theorem orderly_of_hidden
    (h : ∀ l ∈ leaves, ∃ symbol value, l.2.item = .label symbol value ∧ symbol.Hidden) :
    Orderly true leaves ∧ freshBehind true leaves = true := by
  induction leaves with
  | nil => exact ⟨orderly_nil, rfl⟩
  | cons l rest ih =>
    obtain ⟨symbol, value, hitem, hhidden⟩ := h l List.mem_cons_self
    obtain ⟨hrest, hfresh⟩ := ih fun l hl => h l (List.mem_cons_of_mem _ hl)
    have hbehind : l.2.item.freshBehind true = true := by simp [hitem, Item.freshBehind, hhidden]
    refine ⟨orderly_cons.mpr ⟨?_, by rwa [hbehind]⟩, ?_⟩
    · rw [hitem]
      exact fun _ => rfl
    · rw [freshBehind, List.foldl_cons, hbehind]
      exact hfresh

/-- What is put in the place of statements is in order if it is in order in the place of each of
them, and goes on as the statement does. -/
theorem orderly_flatMap {α : Type} {places : List α} {f : α → Nat × Statement}
    {g : α → List (Nat × Statement)}
    (hnew : ∀ a ∈ places, ∀ fresh, (f a).2.item.Orderly fresh →
      Orderly fresh (g a) ∧ freshBehind fresh (g a) = (f a).2.item.freshBehind fresh)
    (h : Orderly fresh (places.map f)) : Orderly fresh (places.flatMap g) := by
  induction places generalizing fresh with
  | nil => exact orderly_nil
  | cons a rest ih =>
    rw [List.map_cons, orderly_cons] at h
    obtain ⟨hfirst, hbehind⟩ := hnew a List.mem_cons_self fresh h.1
    rw [List.flatMap_cons, orderly_append, hbehind]
    exact ⟨hfirst, ih (fun a ha => hnew a (List.mem_cons_of_mem _ ha)) h.2⟩

end Orderly

namespace MacroTable

variable {leaves : List (Nat × Statement)} {arguments : List Expr} {n count : Nat}

theorem hidden_bindArguments (h : leaves.map (·.2.item) = bindArguments n arguments) :
    ∀ l ∈ leaves, ∃ symbol value, l.2.item = .label symbol value ∧ symbol.Hidden :=
  forall_of_items (P := fun item => ∃ symbol value, item = .label symbol value ∧ symbol.Hidden) h
    fun item hitem => by
      obtain ⟨i, argument, -, rfl⟩ := mem_bindArguments.mp hitem
      exact ⟨_, _, rfl, hidden_hiddenName _⟩

theorem unhidden_bindParameters (h : leaves.map (·.2.item) = bindParameters n count) :
    ∀ l ∈ leaves, ∃ symbol value, l.2.item = .label symbol value ∧ ¬ symbol.Hidden :=
  forall_of_items (P := fun item => ∃ symbol value, item = .label symbol value ∧ ¬ symbol.Hidden) h
    fun item hitem => by
      obtain ⟨i, -, rfl⟩ := mem_bindParameters.mp hitem
      exact ⟨_, _, rfl, not_hidden_parameterName _⟩

/-- The statements before the body of a call. -/
theorem exists_opening (h : leaves.map (·.2.item) = opening arguments) :
    ∃ outer hidden inner parameters, leaves = outer :: (hidden ++ inner :: parameters) ∧
      outer.2.item = .scopeBegin ∧ hidden.map (·.2.item) = bindArguments 1 arguments ∧
      inner.2.item = .scopeBegin ∧
      parameters.map (·.2.item) = bindParameters 1 arguments.length := by
  simp only [opening, List.append_assoc, List.singleton_append] at h
  obtain ⟨outer, rest, rfl, houter, hrest⟩ := List.map_eq_cons_iff.mp h
  obtain ⟨hidden, rest, rfl, hhidden, hrest⟩ := List.map_eq_append_iff.mp hrest
  obtain ⟨inner, parameters, rfl, hinner, hparameters⟩ := List.map_eq_cons_iff.mp hrest
  exact ⟨outer, hidden, inner, parameters, rfl, houter, hhidden, hinner, hparameters⟩

end MacroTable

/-- **An expansion is in order** if the body has no hidden names, and leaves no scope fresh. -/
theorem orderly_expansion {arguments : List Expr} {before body behind : List (Nat × Statement)}
    (hbefore : before.map (·.2.item) = MacroTable.opening arguments)
    (hbehind : behind.map (·.2.item) = [.scopeEnd, .scopeEnd])
    (hbody : ∀ l ∈ body, l.2.item.Unhidden) (fresh : Bool) :
    Orderly fresh (before ++ (body ++ behind)) ∧
      freshBehind fresh (before ++ (body ++ behind)) = false := by
  obtain ⟨outer, hidden, inner, parameters, rfl, houter, hhidden, hinner, hparameters⟩ :=
    MacroTable.exists_opening hbefore
  have hunhidden : ∀ l ∈ parameters, l.2.item.Unhidden := fun l hl => by
    obtain ⟨symbol, value, hitem, hsymbol⟩ := MacroTable.unhidden_bindParameters hparameters l hl
    rw [hitem]
    exact hsymbol
  have hends : ∀ l ∈ behind, l.2.item.Unhidden := forall_of_items hbehind (by simp [Item.Unhidden])
  constructor
  · -- The inner scope is as fresh as the outer one until its first parameter is bound.
    simp only [List.cons_append, List.append_assoc, orderly_cons, orderly_append, houter, hinner]
    exact ⟨trivial, (orderly_of_hidden (MacroTable.hidden_bindArguments hhidden)).1, trivial,
      orderly_of_unhidden hunhidden _, orderly_of_unhidden hbody _, orderly_of_unhidden hends _⟩
  · obtain ⟨first, rest, rfl, -, hrest⟩ := List.map_eq_cons_iff.mp hbehind
    obtain ⟨last, rest, rfl, hlast, hnil⟩ := List.map_eq_cons_iff.mp hrest
    obtain rfl := List.map_eq_nil_iff.mp hnil
    simp [freshBehind, hlast, Item.freshBehind]

namespace Workspace

variable {w : Workspace}

/-- The program is in order, and macros have no hidden names. -/
structure Orderly (w : Workspace) : Prop where
  leaves : Assembler6502.Orderly false w.program.leaves
  macros : w.context.macros.Written Item.Unhidden

/-- What takes the place of a statement when macros are expanded is in order. -/
theorem orderly_visit {s : Sweep Unit} (hmacros : s.context.macros.Written Item.Unhidden)
    (l : Nat × Statement) (fresh : Bool) (h : l.2.item.Orderly fresh) :
    Assembler6502.Orderly fresh (Pass.expandMacros s l.1 l.2).2.leaves ∧
      freshBehind fresh (Pass.expandMacros s l.1 l.2).2.leaves = l.2.item.freshBehind fresh := by
  obtain ⟨number, location, item⟩ := l
  cases item with
  | invoke name arguments =>
    cases hm : s.context.macros.get? name with
    | none =>
      simp only [Pass.expandMacros, MacroTable.expand, hm, Node.leaves]
      exact ⟨orderly_cons.mpr ⟨trivial, orderly_nil⟩, rfl⟩
    | some m =>
      simp only [Pass.expandMacros, MacroTable.expand_of_get? hm, Node.leaves,
        Node.ofFragments_append, Node.leavesAll_append]
      refine orderly_expansion (Node.leavesAll_ofItems _ _ _) (Node.leavesAll_ofItems _ _ _)
        (fun l hl => ?_) fresh
      -- What is left is the body, which is what was read, moved to the call.
      obtain ⟨n, hn, hl⟩ := Node.mem_leavesAll.mp hl
      refine Node.written_ofFragments (fun part hpart => ?_) _ n hn l hl
      obtain ⟨other, hother, rfl⟩ := List.mem_map.mp hpart
      exact (hmacros.macros name m hm other hother).moveTo _
  | _ => exact ⟨orderly_cons.mpr ⟨h, orderly_nil⟩, rfl⟩

/-- **Expanding macros** keeps a program in order. -/
theorem Orderly.expandMacros (h : w.Orderly) : (w.sweep () Pass.expandMacros id).1.Orderly := by
  obtain ⟨hend, hall⟩ := macros_expandMacros w
  constructor
  · rw [leaves_sweep]
    refine orderly_flatMap (f := fun x => x.2) (fun x hx fresh hfresh => ?_) ?_
    · refine orderly_visit ?_ x.2 fresh hfresh
      rw [hall x hx]
      exact h.macros
    · have hvisits := flatMap_reached (f := Visit.step Pass.expandMacros) (s := w.opening ())
        (l := w.program.leaves) id
      rw [List.map_id] at hvisits
      rw [List.map_eq_flatMap]
      exact hvisits ▸ h.leaves
  · rw [hend]
    exact h.macros

end Workspace

/-! ## The stages -/

namespace Assembly

variable {options : Options} {program : Program} {diagnostics : Diagnostics}

/-- The passes that expand macros. -/
def expansions (options : Options) (program : Program) (diagnostics : Diagnostics) :
    List Stage.Entry :=
  (Stage.fixpoint "macro expansion" [.pass .expandMacros]).history
    (behindStage options program diagnostics 1) .fresh

theorem expanded_eq : expanded options program diagnostics =
    ((Stage.fixpoint "macro expansion" [.pass .expandMacros]).run
      (behindStage options program diagnostics 1) .fresh).1 := by
  have hstage : (Stage.pipeline options.branchExtend)[1]? =
      some (.fixpoint "macro expansion" [.pass .expandMacros]) := rfl
  rw [expanded, behindStage_succ hstage, Stage.fst_go]

theorem linked_expansions (h : (expanded options program diagnostics).Clean) :
    Stage.Linked (behindStage options program diagnostics 1)
      (expansions options program diagnostics) (expanded options program diagnostics) := by
  rw [expanded_eq] at h ⊢
  exact Stage.linked_history _ _ _ h

theorem after_expansion (h : (expanded options program diagnostics).Clean) {entry : Stage.Entry}
    (hentry : entry ∈ expansions options program diagnostics) :
    entry.after = (entry.before.sweep () Pass.expandMacros id).1 ∧ entry.after.Clean := by
  obtain ⟨⟨d, hd⟩, hclean⟩ := (linked_expansions h).valid h entry hentry
  have hkind : entry.kind = .expandMacros := by
    have hmem := Stage.kind_mem_kinds _ _ _ entry hentry
    simpa [Stage.kinds, Stage.kindsAll] using hmem
  rw [hkind] at hd
  have hbefore : entry.before.Clean := Workspace.clean_of_runPass (hd ▸ hclean)
  rw [Workspace.runPass_of_visit Pass.visit?_expandMacros hbefore] at hd
  exact ⟨hd, hclean⟩

/-- A program that was read without hidden names is in order before macros are expanded. -/
theorem orderly_defined (h : program.Unhidden) :
    (behindStage options program diagnostics 1).Orderly := by
  have hkinds : Stage.kindsAll ((Stage.pipeline options.branchExtend).take 1) =
      [.defineMacros] := rfl
  have hwritten : (behindStage options program diagnostics 1).Written Item.Unhidden := by
    refine Stage.kept_runStages Workspace.endures_written (fun kind hkind w d hw => ?_)
      ⟨h, MacroTable.written_empty⟩
    refine Workspace.kept_runPass (fun hclean => ?_) hw
    rw [hkinds, List.mem_singleton] at hkind
    rw [hkind, Workspace.runPass_defineMacros hclean]
    exact Workspace.written_defineMacros hw trivial
  exact ⟨orderly_of_unhidden hwritten.leaves false, hwritten.macros⟩

/-- **A program that was read without hidden names** is in order in the end, and before every pass
that expands macros. -/
theorem orderly_finished (h : program.Unhidden)
    (hclean : (expanded options program diagnostics).Clean) :
    Orderly false (finished options program diagnostics).program.leaves ∧
      ∀ entry ∈ expansions options program diagnostics, entry.before.Orderly := by
  have hlinked := linked_expansions hclean
  have hstep : ∀ entry ∈ expansions options program diagnostics, entry.before.Orderly →
      entry.after.Orderly := fun entry hentry hbefore => by
    rw [(after_expansion hclean hentry).1]
    exact hbefore.expandMacros
  refine ⟨?_, hlinked.kept_before (orderly_defined h) hstep⟩
  -- The passes behind the expansion keep the skeleton, and order is a matter of the skeleton.
  rw [← orderly_skeleton, skeleton_finished, orderly_skeleton]
  exact (hlinked.lost (orderly_defined h) hstep).leaves

/-- **What is in the place of a call** behind the expansion of macros is what was made of its body,
between the statements that open the scopes of the call and those that close them. -/
theorem call_expanded (hclean : (expanded options program diagnostics).Clean)
    {entry : Stage.Entry} (hentry : entry ∈ expansions options program diagnostics) {π : List Nat}
    {number : Nat} {call : Location} {name : String} {arguments : List Expr}
    (hcall : entry.before.program.root.at? π =
      some (.leaf number ⟨call, .invoke name arguments⟩)) :
    ∃ m before behind, entry.before.context.macros.get? name = some m ∧
      Node.Frame arguments before behind ∧
      (expanded options program diagnostics).HoldsCall π number call before behind
        m.body.length := by
  obtain ⟨hafter, hclean'⟩ := after_expansion hclean hentry
  rw [hafter] at hclean'
  obtain ⟨m, before, behind, hm, hframe, hholds⟩ := Workspace.at?_expandMacros hcall hclean'
  refine ⟨m, before, behind, hm, hframe, ?_⟩
  -- Later rounds of the expansion do not touch the frame of the call.
  refine (linked_expansions hclean).kept_behind (fun other hother h => ?_) hentry (hafter ▸ hholds)
  rw [(after_expansion hclean hother).1]
  exact h.sweep Pass.frames_expandMacros hframe

variable {π : List Nat} {number length : Nat} {call : Location} {arguments : List Expr}
  {before behind : List Node}

/-- What is in the place of a call stays there up to the end, -/
theorem call_finished (hframe : Node.Frame arguments before behind)
    (h : (expanded options program diagnostics).HoldsCall π number call before behind length) :
    (finished options program diagnostics).HoldsCall π number call before behind length :=
  kept_behind_expansion (fun _ _ h => h) (fun hv _ _ h => h.sweep hv.frames hframe) h

/-- and is there before every pass. -/
theorem call_entries (hframe : Node.Frame arguments before behind)
    (h : (expanded options program diagnostics).HoldsCall π number call before behind length) :
    ∀ entry ∈ entries options program diagnostics 2,
      entry.before.HoldsCall π number call before behind length :=
  kept_entries (fun _ _ h => h) (fun hv _ _ h => h.sweep hv.frames hframe) h

end Assembly
end Assembler6502
