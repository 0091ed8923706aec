import Assembler6502.Proofs.Hygiene
import Assembler6502.Proofs.Numerals

/-!
# Parameters without an argument

A body may mention a parameter that the call has no argument for. The scopes of the call do not hold
such a name, so it is sought further out, in the scopes that are open at the call. There it may be a
label of the caller, or a parameter of the macro whose body the call stands in. Where the scopes at
the call do not define it either, the expressions that mention it have no value and are reported.

As for the parameters that have an argument, this takes a body that closes exactly the scopes that
it opens.

## Main definitions

* `Workspace.scopesAt`: the scopes that are open at a position
* `Workspace.seenAt`, `Workspace.valuationAt`: what a label is at a position, and what expressions
  are tried with there

## Main results

* `Environment.lookupIn_body`: a name that the body does not define is seen as at the call
* `Workspace.reported_at`: what has no value is reported by the trial of all expressions
* `Assembly.missing_parameter_seen_at_call`: parameters without an argument
-/

namespace Assembler6502

/-! ## Names that a call binds -/

namespace MacroTable

theorem parameterName_inj {m n : Nat} (h : parameterName m = parameterName n) : m = n :=
  Text.decimal_inj (Symbol.inScope.inj h)

/-- A call binds no parameters but those that have an argument. -/
theorem not_mem_opening {arguments : List Expr} {k : Nat} (hk : arguments.length < k)
    (value : Expr) : .label (parameterName k) value ∉ opening arguments := by
  intro hmem
  simp only [opening, List.mem_append, List.mem_singleton, mem_bindArguments, mem_bindParameters,
    Item.label.injEq] at hmem
  rcases hmem with ((hbegin | ⟨i, argument, -, hname, -⟩) | hbegin) | ⟨i, hi, hname, -⟩
  · cases hbegin
  · exact not_hidden_parameterName k (hname ▸ hidden_hiddenName (1 + i))
  · cases hbegin
  · have heq := parameterName_inj hname
    omega

end MacroTable

/-! ## Scopes inside of a call -/

namespace ScopeState

variable {σ : ScopeState} {arguments : List Expr} {scope : Nat} {symbol : Symbol}
  {before opening body inside closing behind : List (Nat × Statement)}

instance (σ : ScopeState) (leaves : List (Nat × Statement)) (scope : Nat) (symbol : Symbol) :
    Decidable (DefinesFrom σ leaves scope symbol) :=
  decidable_of_iff (∃ y ∈ reached (fun (σ : ScopeState) (l : Nat × Statement) =>
      σ.follow l.2.item) σ leaves, y.1.innermost = scope ∧ y.2.2.item.defined? = some symbol)
    (by simp only [Item.defined?_eq_some, DefinesFrom])

theorem DefinesFrom.exists_mem {leaves : List (Nat × Statement)}
    (h : DefinesFrom σ leaves scope symbol) :
    ∃ l ∈ leaves, ∃ value, l.2.item = .label symbol value :=
  let ⟨y, hy, _, hvalue⟩ := h
  ⟨y.2, mem_of_mem_reached hy, hvalue⟩

/-- **What the scopes inside of a call hold** comes from its body, unless the call binds it: what
comes before the call has other scopes, and the scopes are closed behind it. -/
theorem Defines.definesFrom_body
    (hopening : opening.map (·.2.item) = MacroTable.opening arguments)
    (hclosing : closing.map (·.2.item) = [.scopeEnd, .scopeEnd]) (hbody : Balanced body)
    (hunbound : ∀ value, .label symbol value ∉ MacroTable.opening arguments)
    (hlater : (ScopeState.behind before).count < scope)
    (hopened : scope ≤ (ScopeState.behind (before ++ (opening ++ body))).count)
    (h : Defines (before ++ (opening ++ (body ++ (closing ++ behind)))) scope symbol) :
    DefinesFrom (ScopeState.behind (before ++ opening)) body scope symbol := by
  have hrun : ∀ leaves, ScopeState.behind (before ++ leaves) =
      (ScopeState.behind before).run leaves := fun leaves => run_append
  rw [hrun] at hopened ⊢
  obtain ⟨⟨nested, hnil, hinner, -⟩, -⟩ :=
    ((above_opening (σ := ScopeState.behind before) hopening).run hbody).1
  rcases definesFrom_append.mp (h.definesFrom hlater) with h | h
  · obtain ⟨l, hl, value, hvalue⟩ := h.exists_mem
    refine absurd ?_ (hunbound value)
    rw [← hopening, ← hvalue]
    exact List.mem_map_of_mem (f := fun l : Nat × Statement => l.2.item) hl
  rcases definesFrom_append.mp h with h | h
  · exact h
  rcases definesFrom_append.mp h with h | h
  · exact absurd h (not_definesFrom_closing hclosing)
  · -- Behind the call its scopes are closed, and those that are open are from before it.
    obtain rfl := List.length_eq_zero_iff.mp hnil
    rw [run_append] at hopened
    refine absurd h (not_definesFrom_of_closed (Nat.zero_lt_of_lt hlater) ?_ ?_)
    · rw [run_closing hclosing]
      exact hopened
    · rw [run_closing hclosing, hinner]
      exact fun hmem => absurd (numbered_behind before scope hmem).2 (Nat.not_le_of_lt hlater)

/-- The scopes that are open inside of a body are those at the call, and later ones. -/
theorem exists_nested (before : List (Nat × Statement))
    (hopening : opening.map (·.2.item) = MacroTable.opening arguments)
    {depth : Nat} (hinside : depthBehind? 0 inside = some depth) :
    ∃ nested, (ScopeState.behind (before ++ (opening ++ inside))).inner =
        nested ++ (ScopeState.behind before).inner ∧
      ∀ scope ∈ nested, (ScopeState.behind before).count < scope := by
  have hrun : ScopeState.behind (before ++ (opening ++ inside)) =
      ((ScopeState.behind before).run opening).run inside :=
    run_append.trans run_append
  obtain ⟨⟨nested, -, hinner, hlater⟩, -⟩ :=
    ((above_opening (σ := ScopeState.behind before) hopening).run hinside).1
  refine ⟨nested ++ [(ScopeState.behind before).count + 2, (ScopeState.behind before).count + 1],
    by rw [hrun, hinner]; simp, fun scope hscope => ?_⟩
  rcases List.mem_append.mp hscope with hscope | hscope
  · have := hlater scope hscope
    omega
  · simp only [List.mem_cons, List.not_mem_nil, or_false] at hscope
    omega

end ScopeState

/-- **A name that the body does not define is seen as at the call**, unless the call binds it. -/
theorem Environment.lookupIn_body {env : Environment} {arguments : List Expr} {symbol : Symbol}
    {before opening inside rest closing behind : List (Nat × Statement)}
    (hopening : opening.map (·.2.item) = MacroTable.opening arguments)
    (hclosing : closing.map (·.2.item) = [.scopeEnd, .scopeEnd])
    (hbody : Balanced (inside ++ rest))
    (hbound : ∀ scope name, ((env.localsOf scope).get? name).isSome →
      ScopeState.Defines (before ++ (opening ++ (inside ++ rest ++ (closing ++ behind)))) scope
        (.inScope name))
    (hunbound : ∀ value, .label symbol value ∉ MacroTable.opening arguments)
    (hundefined : ∀ scope ∈ (ScopeState.behind (before ++ (opening ++ inside))).inner,
      ¬ (ScopeState.behind (before ++ opening)).DefinesFrom (inside ++ rest) scope symbol) :
    env.lookupIn (ScopeState.behind (before ++ (opening ++ inside))).inner symbol =
      env.lookupIn (ScopeState.behind before).inner symbol := by
  obtain ⟨depth, hdepth⟩ := hbody.exists_depth
  obtain ⟨nested, hinner, hlater⟩ := ScopeState.exists_nested before hopening hdepth
  have hnumbered := ScopeState.numbered_behind (before ++ (opening ++ inside))
  -- All scopes inside of the call were opened before the body ends.
  have hopened : ∀ scope ∈ nested,
      scope ≤ (ScopeState.behind (before ++ (opening ++ (inside ++ rest)))).count := by
    intro scope hscope
    have hle := (hnumbered scope (hinner ▸ List.mem_append_left _ hscope)).2
    have hrun : ScopeState.behind (before ++ (opening ++ (inside ++ rest))) =
        (ScopeState.behind (before ++ (opening ++ inside))).run rest := by
      simp only [← List.append_assoc]
      exact ScopeState.run_append
    rw [hrun]
    exact Nat.le_trans hle (ScopeState.count_le_run _ rest)
  rw [hinner] at hundefined ⊢
  cases symbol with
  | global name => rw [lookupIn_global, lookupIn_global]
  | inScope name =>
    refine lookupIn_nested _ fun scope hscope => ?_
    rw [← Option.not_isSome_iff_eq_none]
    intro hsome
    exact hundefined scope (List.mem_append_left _ hscope)
      ((hbound scope name hsome).definesFrom_body hopening hclosing hbody hunbound
        (hlater scope hscope) (hopened scope hscope))

/-! ## What is seen at a position -/

namespace Workspace

variable {w : Workspace} {π : List Nat} {symbol : Symbol}

/-- The scopes that are open at a position. -/
def scopesAt (w : Workspace) (π : List Nat) : ScopeState :=
  ScopeState.behind (w.program.root.before π)

/-- What a label is at a position, in the scopes that are open there. -/
def seenAt (w : Workspace) (π : List Nat) (symbol : Symbol) : Option Value :=
  w.context.env.lookupIn (w.scopesAt π).inner symbol

/-- A local label that is seen is defined in one of the open scopes. -/
theorem Bound.defines_of_seenAt {name : String} (hw : w.Bound)
    (h : (w.seenAt π (.inScope name)).isSome) :
    ∃ scope ∈ (w.scopesAt π).inner ++ [0],
      ScopeState.Defines w.program.leaves scope (.inScope name) := by
  rw [seenAt] at h
  generalize (w.scopesAt π).inner = stack at h ⊢
  induction stack with
  | nil =>
    rw [Environment.lookupIn_nil] at h
    exact ⟨0, by simp, hw 0 name h⟩
  | cons scope rest ih =>
    rw [Environment.lookupIn_cons] at h
    cases hscope : (w.context.env.localsOf scope).get? name with
    | some v => exact ⟨scope, by simp, hw scope name (by rw [hscope]; rfl)⟩
    | none =>
      rw [hscope, Option.none_or] at h
      obtain ⟨other, hother, hdefines⟩ := ih h
      exact ⟨other, List.mem_cons_of_mem _ hother, hdefines⟩

/-- What the trial of all expressions sees at a position: the labels there, at address zero. -/
def valuationAt (w : Workspace) (π : List Nat) : Valuation :=
  ⟨w.seenAt π, 0⟩

theorem along_of_at? {leaf : Nat} {statement : Statement}
    (h : w.program.root.at? π = some (.leaf leaf statement)) :
    (w.scopesAt π, leaf, statement) ∈ ScopeState.along w.program.leaves := by
  obtain ⟨rest, hleaves⟩ := Node.leaves_eq_before h
  rw [ScopeState.along, Program.leaves, hleaves, Node.leaves, reached_append]
  exact List.mem_append_right _ List.mem_cons_self

/-- **What has no value is reported** by the trial of all expressions, where it stands. -/
theorem reported_at {leaf : Nat} {statement : Statement} {e : Expr} {err : EvalError}
    (hat : w.program.root.at? π = some (.leaf leaf statement))
    (he : e ∈ statement.item.expressions) (herr : e.evaluate (w.valuationAt π) = .error err) :
    ⟨statement.location, .evaluation err⟩ ∈
      (w.sweep () Pass.checkExpressions id).1.context.diagnostics.errors := by
  obtain ⟨x, hx, ⟨hscopes, -⟩, hyx⟩ :=
    (lockstep_along () Pass.inPlace_checkExpressions.faithful).2.2 _ (along_of_at? hat)
  have hvalue : x.1.context.evaluate e = .error err := by
    rw [Context.evaluate, valuation_of_visits hx, hscopes]
    exact herr
  obtain ⟨rfl, rfl⟩ : leaf = x.2.1 ∧ statement = x.2.2 := Prod.mk.inj hyx
  -- The fault is added at the statement, and faults are never taken back.
  have hstep := reported_of_step he hvalue
  obtain ⟨added, hadded, -⟩ := adds_of_visits Pass.inPlace_checkExpressions.faithful hx
  exact hadded ▸ List.mem_append_left _ hstep

end Workspace

namespace Assembly

/-- **A parameter without an argument is what its name is at the call.** Take a program whose macros
are expanded without a fault, a call that some pass expands, be it a call of the program or of the
body of a macro, and any pass of any round from then on, the last one included. Before that pass, if
what was made of the body closes exactly the scopes that it opens, then at each of its statements a
parameter with a number that the call has no argument for is seen as it is at the call, unless the
body itself defines the name in a scope that is open at the statement. So it is a parameter of the
macro in whose body the call stands if that is what the name is there. If the name is not seen at
the call, as it is not where no scope that is open there defines it, then no expression of the body
that mentions it has a value, and the trial of all expressions reports each of them, provided that
nothing was found wrong before: as lacking this label exactly if evaluation comes to it, and
otherwise for what it meets before. -/
theorem missing_parameter_seen_at_call (options : Options) (program : Program)
    (diagnostics : Diagnostics) (h : (expanded options program diagnostics).Clean) :
    ∀ entry ∈ expansions options program diagnostics, ∀ π number call name arguments,
      entry.before.program.root.at? π = some (.leaf number ⟨call, .invoke name arguments⟩) →
      ∃ m, entry.before.context.macros.get? name = some m ∧
        ∀ later ∈ entries options program diagnostics 2, ∀ w, later.before = w →
          ∃ children, w.program.root.at? π = some (.sequence number call children) ∧
            (Node.callBody arguments.length children).length = m.body.length ∧
            (Balanced (Node.leavesAll (Node.callBody arguments.length children)) →
              ∀ i < m.body.length, ∀ ρ place leaf statement,
                place = π ++ MacroTable.bodyPlace arguments.length i :: ρ →
                w.program.root.at? place = some (.leaf leaf statement) →
                ∀ k > arguments.length,
                  (∀ scope ∈ (w.scopesAt place).inner,
                    ¬ (w.scopesAt (π ++ [MacroTable.bodyPlace arguments.length 0])).DefinesFrom
                      (Node.leavesAll (Node.callBody arguments.length children)) scope
                      (MacroTable.parameterName k)) →
                  w.seenAt place (MacroTable.parameterName k) =
                    w.seenAt π (MacroTable.parameterName k) ∧
                  ((∀ scope ∈ (w.scopesAt π).inner ++ [0],
                      ¬ ScopeState.Defines w.program.leaves scope (MacroTable.parameterName k)) →
                    w.seenAt π (MacroTable.parameterName k) = none) ∧
                  (later.kind = .checkExpressions → w.Clean →
                    w.seenAt π (MacroTable.parameterName k) = none →
                    ∀ e ∈ statement.item.expressions,
                      (Expr.symbol (MacroTable.parameterName k)).Occurs e →
                      ∃ err, ⟨statement.location, .evaluation err⟩ ∈
                          later.after.context.diagnostics.errors ∧
                        e.evaluate (w.valuationAt place) = .error err ∧
                        (err = .unknownLabel (MacroTable.parameterName k) ↔
                          e.ComesTo (w.valuationAt place) (MacroTable.parameterName k)))) := by
  intro entry hentry π number call name arguments hcall
  obtain ⟨m, before, behind, hm, hframe, hholds⟩ := call_expanded h hentry hcall
  refine ⟨m, hm, ?_⟩
  rintro later hlater w rfl
  obtain ⟨body, hbody, hat⟩ := call_entries hframe hholds later hlater
  refine ⟨_, hat, by rw [hframe.callBody_eq, hbody], ?_⟩
  rw [hframe.callBody_eq]
  rintro hbalanced i hi ρ place leaf statement hplace hleaf k hk hundefined
  rw [hframe.bodyPlace_eq] at hplace hundefined
  have hbound := bound_entries later hlater
  have hseen : later.before.seenAt place (MacroTable.parameterName k) =
      later.before.seenAt π (MacroTable.parameterName k) := by
    -- The statements: those before the call, the frame around its body, and the rest.
    obtain ⟨rest, hleaves⟩ := Node.leaves_eq_before hat
    simp only [Node.leaves, Node.leavesAll_append, List.append_assoc] at hleaves
    obtain ⟨inside, tail, hinside, hposition⟩ :=
      Node.exists_before_body hat (hbody ▸ hi) (hplace ▸ hleaf)
    simp only [Workspace.scopesAt, Workspace.seenAt, hplace, hposition, Nat.add_zero,
      Node.before_body hat] at hundefined ⊢
    have hdefines : ∀ scope name, ((later.before.context.env.localsOf scope).get? name).isSome →
        ScopeState.Defines (later.before.program.root.before π ++ (Node.leavesAll before ++
          (inside ++ tail ++ (Node.leavesAll behind ++ rest)))) scope (.inScope name) := by
      rw [← hinside, ← hleaves]
      exact hbound
    rw [hinside] at hbalanced hundefined
    exact Environment.lookupIn_body hframe.before_items hframe.behind_items hbalanced hdefines
      (MacroTable.not_mem_opening hk) hundefined
  refine ⟨hseen, fun hnone => ?_, fun hkind hclean hunseen e he hoccurs => ?_⟩
  · rw [← Option.not_isSome_iff_eq_none]
    intro hsome
    obtain ⟨scope, hscope, hdefines⟩ := hbound.defines_of_seenAt hsome
    exact hnone scope hscope hdefines
  · have hlookup : (later.before.valuationAt place).lookup (MacroTable.parameterName k) = none :=
      hseen.trans hunseen
    obtain ⟨err, herr⟩ := Expr.exists_error_of_occurs hlookup hoccurs
    have hvisit : Pass.Kind.checkExpressions.visit? = some Pass.checkExpressions := rfl
    obtain ⟨d, hafter⟩ := runs_of_mem_entries hlater
    rw [hkind, Workspace.runPass_of_visit hvisit hclean] at hafter
    refine ⟨err, hafter ▸ Workspace.reported_at hleaf he herr, herr, ?_⟩
    -- Which label an expression lacks is the one that its evaluation comes to.
    have hlacks := @Expr.evaluate_eq_unknownLabel_iff (later.before.valuationAt place) e
      (MacroTable.parameterName k)
    rw [herr, Except.error.injEq] at hlacks
    exact hlacks.trans (and_iff_right hlookup)

/-- The expressions `[_1 + 1]` and `[[1 / 0] + _1]`. -/
def aroundParameter : List Expr :=
  [.chain (.symbol (.inScope "1")) [(.add, .constant 1)],
    .chain (.chain (.constant 1) [(.divide, .constant 0)]) [(.add, .symbol (.inScope "1"))]]

/-- A macro that mentions a parameter, and a call that has no argument for it. -/
def orphanParameter : Program :=
  ⟨[.leaf 1 ⟨.topLevel, .macroBegin "inner"⟩,
    .leaf 2 ⟨.topLevel, .data .byte .little aroundParameter⟩,
    .leaf 3 ⟨.topLevel, .macroEnd⟩,
    .leaf 4 ⟨.topLevel, .invoke "inner" []⟩], 5⟩

/-- Outside of macros nothing is seen of the parameter at the call. It is reported where evaluation
comes to it, and where it divides by zero before, that is. -/
theorem missing_parameter_orphanParameter :
    (expanded {} orphanParameter {}).Clean ∧
      ∃ later ∈ entries {} orphanParameter {} 2, later.kind = .checkExpressions ∧
        later.before.Clean ∧ later.before.seenAt [3] (MacroTable.parameterName 1) = none ∧
        ⟨.expansion .topLevel .topLevel,
            .evaluation (.unknownLabel (MacroTable.parameterName 1))⟩ ∈
          later.after.context.diagnostics.errors ∧
        ⟨.expansion .topLevel .topLevel, .evaluation .divisionByZero⟩ ∈
          later.after.context.diagnostics.errors := by
  have hexpanded : (expanded {} orphanParameter {}).Clean := by
    unfold Workspace.Clean
    decide +kernel
  have hcall : (expansions {} orphanParameter {})[0]?.map (·.before.program.root.at? [3]) =
      some (some (.leaf 4 ⟨.topLevel, .invoke "inner" []⟩)) := rfl
  obtain ⟨entry, hentry, hcall⟩ := Option.map_eq_some_iff.mp hcall
  obtain ⟨m, -, hlater⟩ := missing_parameter_seen_at_call {} orphanParameter {} hexpanded entry
    (List.mem_of_getElem? hentry) [3] 4 _ "inner" _ hcall
  -- The pass that tries all expressions, and the body of the call before it.
  have hpass : (entries {} orphanParameter {} 2)[2]?.map (fun later =>
      (later.kind, later.before.context.hasErrors,
        later.before.seenAt [3] (MacroTable.parameterName 1))) =
      some (.checkExpressions, false, none) := by decide +kernel
  have hbody : (entries {} orphanParameter {} 2)[2]?.map (fun later =>
      (later.before.program.root.at? [3]).map fun n =>
        (decide (Balanced (Node.leavesAll (Node.callBody 0 n.children))),
          (Node.callBody 0 n.children).length,
          decide (∀ scope ∈ (later.before.scopesAt [3, 2]).inner,
            ¬ (later.before.scopesAt [3, 2]).DefinesFrom
              (Node.leavesAll (Node.callBody 0 n.children)) scope
              (MacroTable.parameterName 1)))) =
      some (some (true, 1, true)) := by decide +kernel
  have hleaf : (entries {} orphanParameter {} 2)[2]?.map (·.before.program.root.at? [3, 2]) =
      some (some (.leaf 7 ⟨.expansion .topLevel .topLevel,
        .data .byte .little aroundParameter⟩)) := rfl
  obtain ⟨later, hmem, hfacts⟩ := Option.map_eq_some_iff.mp hpass
  rw [hmem, Option.map_some, Option.some.injEq] at hbody hleaf
  obtain ⟨hkind, hfacts⟩ := Prod.mk.inj hfacts
  obtain ⟨hclean, hunseen⟩ := Prod.mk.inj hfacts
  obtain ⟨children, hat, hlength, hseen⟩ := hlater later (List.mem_of_getElem? hmem) _ rfl
  rw [hat] at hbody
  simp only [Option.map_some, Option.some.injEq, Prod.mk.injEq, Node.children] at hbody
  obtain ⟨hbalanced, hone, hundefined⟩ := hbody
  obtain ⟨-, -, hreported⟩ := hseen (of_decide_eq_true hbalanced) 0
    (by rw [← hlength]; exact hone ▸ Nat.one_pos) [] [3, 2] _ _ rfl hleaf 1 (by decide)
    (of_decide_eq_true hundefined)
  obtain ⟨err, htold, -, hiff⟩ := hreported hkind hclean hunseen _ List.mem_cons_self
    (.first .self)
  obtain ⟨err', htold', herr', -⟩ := hreported hkind hclean hunseen _
    (List.mem_cons_of_mem _ List.mem_cons_self) (.operand List.mem_cons_self .self)
  rw [hiff.mpr (.first .symbol)] at htold
  cases herr'
  exact ⟨hexpanded, later, List.mem_of_getElem? hmem, hkind, hclean, hunseen, htold, htold'⟩

/-- A macro that calls another one without an argument for the parameter that it mentions. -/
def inheritedParameter : Program :=
  ⟨[.leaf 1 ⟨.topLevel, .macroBegin "inner"⟩,
    .leaf 2 ⟨.topLevel, .data .byte .little [.symbol (.inScope "1")]⟩,
    .leaf 3 ⟨.topLevel, .macroEnd⟩,
    .leaf 4 ⟨.topLevel, .macroBegin "outer"⟩,
    .leaf 5 ⟨.topLevel, .invoke "inner" []⟩,
    .leaf 6 ⟨.topLevel, .macroEnd⟩,
    .leaf 7 ⟨.topLevel, .invoke "outer" [.constant 7]⟩], 8⟩

/-- The body of the inner macro, which defines no labels, sees the argument of the outer one, and
the program is assembled without a fault. -/
theorem parameter_inherited_inheritedParameter :
    (∃ entry ∈ expansions {} inheritedParameter {}, entry.before.program.root.at? [6, 4] =
        some (.leaf 12 ⟨.expansion .topLevel .topLevel, .invoke "inner" []⟩)) ∧
      ((finished {} inheritedParameter {}).program.root.at? [6, 4]).map
        (·.leaves.map (·.2.item.text)) =
          some ["ScopeBegin", "ScopeBegin", "Byte _1", "ScopeEnd", "ScopeEnd"] ∧
      (finished {} inheritedParameter {}).seenAt [6] (MacroTable.parameterName 1) = none ∧
      (finished {} inheritedParameter {}).seenAt [6, 4, 2] (MacroTable.parameterName 1) = some 7 ∧
      (ofProgram {} inheritedParameter {}).diagnostics.hasErrors = false ∧
      (ofProgram {} inheritedParameter {}).image.bytes = #[7] := by
  refine ⟨?_, by decide +kernel, by decide +kernel, by decide +kernel, by decide +kernel,
    by decide +kernel⟩
  have hcall : (expansions {} inheritedParameter {})[1]?.map (·.before.program.root.at? [6, 4]) =
      some (some (.leaf 12 ⟨.expansion .topLevel .topLevel, .invoke "inner" []⟩)) := rfl
  obtain ⟨entry, hentry, hcall⟩ := Option.map_eq_some_iff.mp hcall
  exact ⟨entry, List.mem_of_getElem? hentry, hcall⟩

end Assembly
end Assembler6502
