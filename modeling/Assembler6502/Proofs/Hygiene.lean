import Assembler6502.Proofs.Calls

/-!
# Hygiene of macros

Arguments of a call are valued where the call stands. The scope in which they are bound holds hidden
names only, so the labels of the caller are seen through it, and the scope of the parameters holds
no hidden names, so each parameter has the value of its own argument. Inside of the body, a
parameter is seen from every nested scope that does not define its name anew.

This takes a body that closes exactly the scopes that it opens. A body that closes the scope of its
parameters does not see them behind that, and labels that it defines there are seen by its
arguments. So are labels that are defined behind a call whose body leaves a scope open.

## Main definitions

* `Balanced`: statements that close exactly the scopes that they open
* `ScopeState.DefinesFrom`: a label is defined directly in a scope, by statements that begin in
  given scopes
* `Assembly.environmentAt`: the final environment at a position

## Main results

* `ScopeState.hidden_of_definesFrom_outer`: the scope of the arguments holds hidden names only
* `ScopeState.not_hidden_of_definesFrom_inner`: the scope of the parameters holds none
* `Environment.exists_argument_value`: parameters have the values of the arguments at the call
* `Assembly.arguments_valued_at_call`: parameters in the body of a call
-/

namespace Assembler6502

/-! ## Balanced statements -/

/-- The number of open scopes behind an item. A scope that was not opened cannot be closed. -/
def Item.depthBehind? (depth : Nat) : Item → Option Nat
  | .scopeBegin => some (depth + 1)
  | .scopeEnd => if depth = 0 then none else some (depth - 1)
  | _ => some depth

/-- The number of open scopes behind some statements, if they close no others. -/
def depthBehind? (depth : Nat) (leaves : List (Nat × Statement)) : Option Nat :=
  leaves.foldlM (fun depth l => l.2.item.depthBehind? depth) depth

/-- The statements close exactly the scopes that they open. -/
def Balanced (leaves : List (Nat × Statement)) : Prop :=
  depthBehind? 0 leaves = some 0

instance (leaves : List (Nat × Statement)) : Decidable (Balanced leaves) :=
  inferInstanceAs (Decidable (_ = _))

theorem Balanced.exists_depth {leaves more : List (Nat × Statement)}
    (h : Balanced (leaves ++ more)) : ∃ depth, depthBehind? 0 leaves = some depth := by
  rw [Balanced, depthBehind?, List.foldlM_append] at h
  obtain ⟨depth, hdepth, -⟩ := Option.bind_eq_some_iff.mp h
  exact ⟨depth, hdepth⟩

/-- The statements do nothing but define labels. -/
def Labels (leaves : List (Nat × Statement)) : Prop :=
  ∀ l ∈ leaves, ∃ symbol value, l.2.item = .label symbol value

theorem Labels.of_imp {P : Symbol → Prop} {leaves : List (Nat × Statement)}
    (h : ∀ l ∈ leaves, ∃ symbol value, l.2.item = .label symbol value ∧ P symbol) : Labels leaves :=
  fun l hl => let ⟨symbol, value, hitem, _⟩ := h l hl; ⟨symbol, value, hitem⟩

/-- The label that an item defines. -/
def Item.defined? : Item → Option Symbol
  | .label symbol _ => some symbol
  | _ => none

theorem Item.defined?_eq_some {item : Item} {symbol : Symbol} :
    item.defined? = some symbol ↔ ∃ value, item = .label symbol value := by
  cases item with
  | label other value => simp [defined?]
  | _ => simp [defined?]

namespace ScopeState

instance (leaves : List (Nat × Statement)) (scope : Nat) (symbol : Symbol) :
    Decidable (Defines leaves scope symbol) :=
  decidable_of_iff (∃ y ∈ along leaves, y.1.innermost = scope ∧ y.2.2.item.defined? = some symbol)
    (by simp only [Item.defined?_eq_some, Defines])

variable {σ : ScopeState} {item : Item} {base : List Nat} {scope depth depth' : Nat}
  {symbol : Symbol} {l : Nat × Statement} {leaves more : List (Nat × Statement)}

/-- The open scopes behind statements that begin in given ones. -/
def run (σ : ScopeState) (leaves : List (Nat × Statement)) : ScopeState :=
  leaves.foldl (fun σ l => σ.follow l.2.item) σ

theorem run_cons : σ.run (l :: leaves) = (σ.follow l.2.item).run leaves := rfl

theorem run_append : σ.run (leaves ++ more) = (σ.run leaves).run more :=
  List.foldl_append

/-- So many scopes are open inside of given ones, and all of them were opened later than some
scope. -/
structure Above (base : List Nat) (scope depth : Nat) (σ : ScopeState) : Prop where
  inner : ∃ nested, nested.length = depth ∧ σ.inner = nested ++ base ∧ ∀ s ∈ nested, scope < s
  count : scope ≤ σ.count

theorem Above.follow (h : Above base scope depth σ)
    (hitem : item.depthBehind? depth = some depth') :
    Above base scope depth' (σ.follow item) := by
  obtain ⟨⟨nested, rfl, hinner, hlater⟩, hcount⟩ := h
  cases item with
  | scopeBegin =>
    obtain rfl := Option.some.inj hitem
    -- A new scope is numbered past all scopes so far.
    refine ⟨⟨(σ.count + 1) :: nested, rfl, by rw [ScopeState.follow, hinner]; rfl, ?_⟩, ?_⟩
    · exact List.forall_mem_cons.mpr ⟨Nat.lt_succ_of_le hcount, hlater⟩
    · exact Nat.le_succ_of_le hcount
  | scopeEnd =>
    cases nested with
    | nil => cases hitem
    | cons first rest =>
      obtain rfl : rest.length = depth' := by simpa [Item.depthBehind?] using hitem
      refine ⟨⟨rest, rfl, by rw [ScopeState.follow, hinner]; rfl, ?_⟩, hcount⟩
      exact fun s hs => hlater s (List.mem_cons_of_mem _ hs)
  | _ =>
    obtain rfl := Option.some.inj hitem
    exact ⟨⟨nested, rfl, hinner, hlater⟩, hcount⟩

/-- **Statements that close no scopes but their own** stay in the scopes in which they begin. -/
theorem Above.run (h : Above base scope depth σ)
    (hleaves : depthBehind? depth leaves = some depth') :
    Above base scope depth' (σ.run leaves) ∧
      ∀ y ∈ reached (fun σ l => σ.follow l.2.item) σ leaves, ∃ d, Above base scope d y.1 := by
  -- The depth counts the scopes that are open on top of the base.
  induction leaves generalizing σ depth with
  | nil =>
    obtain rfl := Option.some.inj hleaves
    exact ⟨h, by simp⟩
  | cons l rest ih =>
    rw [depthBehind?, List.foldlM_cons] at hleaves
    obtain ⟨d, hd, hrest⟩ := Option.bind_eq_some_iff.mp hleaves
    obtain ⟨hend, hall⟩ := ih (h.follow hd) hrest
    exact ⟨hend, List.forall_mem_cons.mpr ⟨⟨depth, h⟩, hall⟩⟩

/-! ## Where labels are defined -/

/-- A label is defined directly in a scope, by statements that begin in given scopes. -/
def DefinesFrom (σ : ScopeState) (leaves : List (Nat × Statement)) (scope : Nat)
    (symbol : Symbol) : Prop :=
  ∃ y ∈ reached (fun σ l => σ.follow l.2.item) σ leaves,
    y.1.innermost = scope ∧ ∃ value, y.2.2.item = .label symbol value

theorem definesFrom_cons : DefinesFrom σ (l :: leaves) scope symbol ↔
    (σ.innermost = scope ∧ ∃ value, l.2.item = .label symbol value) ∨
      DefinesFrom (σ.follow l.2.item) leaves scope symbol := by
  simp only [DefinesFrom, reached_cons, List.mem_cons, or_and_right, exists_or, exists_eq_left]

theorem definesFrom_append : DefinesFrom σ (leaves ++ more) scope symbol ↔
    DefinesFrom σ leaves scope symbol ∨ DefinesFrom (σ.run leaves) more scope symbol := by
  simp only [DefinesFrom, reached_append, List.mem_append, or_and_right, exists_or]
  rfl

/-- The open scopes are among those that were opened. -/
def Numbered (σ : ScopeState) : Prop :=
  ∀ scope ∈ σ.inner, 0 < scope ∧ scope ≤ σ.count

theorem Numbered.innermost_le (h : σ.Numbered) : σ.innermost ≤ σ.count := by
  cases hi : σ.inner with
  | nil => simp [innermost, hi]
  | cons scope rest => simpa [innermost, hi] using (h scope (by simp [hi])).2

theorem Numbered.follow (h : σ.Numbered) (item : Item) : (σ.follow item).Numbered := by
  cases item with
  | scopeBegin =>
    refine List.forall_mem_cons.mpr ⟨⟨Nat.zero_lt_succ _, Nat.le_refl _⟩, fun scope hscope => ?_⟩
    exact ⟨(h scope hscope).1, Nat.le_succ_of_le (h scope hscope).2⟩
  | scopeEnd => exact fun scope hscope => h scope (List.mem_of_mem_tail hscope)
  | _ => exact h

theorem count_le_follow (item : Item) : σ.count ≤ (σ.follow item).count := by
  cases item with
  | scopeBegin => exact Nat.le_succ _
  | _ => exact Nat.le_refl _

theorem Numbered.run (h : σ.Numbered) (leaves : List (Nat × Statement)) :
    (σ.run leaves).Numbered := by
  induction leaves generalizing σ with
  | nil => exact h
  | cons l rest ih => exact ih (h.follow l.2.item)

theorem numbered_behind (leaves : List (Nat × Statement)) : (behind leaves).Numbered :=
  Numbered.run (by simp [Numbered]) leaves

theorem count_le_run (σ : ScopeState) (leaves : List (Nat × Statement)) :
    σ.count ≤ (σ.run leaves).count := by
  induction leaves generalizing σ with
  | nil => exact Nat.le_refl _
  | cons l rest ih => exact Nat.le_trans (count_le_follow _) (ih _)

/-- A scope in which a label is defined was opened. -/
theorem Numbered.le_of_definesFrom (hσ : σ.Numbered) (h : DefinesFrom σ leaves scope symbol) :
    scope ≤ (σ.run leaves).count := by
  induction leaves generalizing σ with
  | nil =>
    obtain ⟨y, hy, -⟩ := h
    cases hy
  | cons l rest ih =>
    rcases definesFrom_cons.mp h with ⟨rfl, -⟩ | h
    · exact Nat.le_trans hσ.innermost_le (count_le_run σ (l :: rest))
    · exact ih (hσ.follow _) h

theorem Defines.definesFrom (h : Defines (leaves ++ more) scope symbol)
    (hscope : (behind leaves).count < scope) : DefinesFrom (behind leaves) more scope symbol := by
  rcases definesFrom_append.mp h with h | h
  · exact absurd (Numbered.le_of_definesFrom (by simp [Numbered]) h) (Nat.not_le_of_lt hscope)
  · exact h

/-- No label is defined in a scope that was closed. -/
theorem not_definesFrom_of_closed (hzero : 0 < scope) (hcount : scope ≤ σ.count)
    (hclosed : scope ∉ σ.inner) : ¬ DefinesFrom σ leaves scope symbol := by
  have hinnermost : ∀ τ : ScopeState, scope ∉ τ.inner → τ.innermost ≠ scope := by
    rintro ⟨inner, count⟩ hτ rfl
    cases inner with
    | nil => exact absurd hzero (by simp [innermost])
    | cons first rest => exact hτ List.mem_cons_self
  induction leaves generalizing σ with
  | nil =>
    rintro ⟨y, hy, -⟩
    cases hy
  | cons l rest ih =>
    rw [definesFrom_cons]
    rintro (⟨hscope, -⟩ | h)
    · exact hinnermost σ hclosed hscope
    · refine ih (Nat.le_trans hcount (count_le_follow _)) ?_ h
      -- A scope that is opened later has another number.
      cases l.2.item with
      | scopeBegin => simpa [follow] using ⟨Nat.ne_of_lt (Nat.lt_succ_of_le hcount), hclosed⟩
      | scopeEnd => exact fun hmem => hclosed (List.mem_of_mem_tail hmem)
      | _ => exact hclosed

theorem run_labels (h : Labels leaves) : σ.run leaves = σ := by
  induction leaves with
  | nil => rfl
  | cons l rest ih =>
    obtain ⟨symbol, value, hitem⟩ := h l List.mem_cons_self
    rw [run, List.foldl_cons, hitem]
    exact ih fun l hl => h l (List.mem_cons_of_mem _ hl)

/-- Statements that do nothing but define labels define them in the innermost scope. -/
theorem definesFrom_labels (h : Labels leaves) (hd : DefinesFrom σ leaves scope symbol) :
    σ.innermost = scope ∧ ∃ l ∈ leaves, ∃ value, l.2.item = .label symbol value := by
  induction leaves with
  | nil =>
    obtain ⟨y, hy, -⟩ := hd
    cases hy
  | cons l rest ih =>
    obtain ⟨other, value, hitem⟩ := h l List.mem_cons_self
    rcases definesFrom_cons.mp hd with ⟨hscope, hl⟩ | hd
    · exact ⟨hscope, l, List.mem_cons_self, hl⟩
    · rw [hitem] at hd
      obtain ⟨hscope, l', hl', hvalue⟩ := ih (fun l hl => h l (List.mem_cons_of_mem _ hl)) hd
      exact ⟨hscope, l', List.mem_cons_of_mem _ hl', hvalue⟩

/-- Hidden names are defined in scopes that are opened later: where the walk begins, no scope is
fresh. -/
theorem lt_of_definesFrom_hidden {fresh : Bool} (hcount : depth ≤ σ.count)
    (hfresh : fresh = true → depth < σ.innermost) (horderly : Orderly fresh leaves)
    (hsymbol : symbol.Hidden) (h : DefinesFrom σ leaves scope symbol) : depth < scope := by
  induction leaves generalizing σ fresh with
  | nil =>
    obtain ⟨y, hy, -⟩ := h
    cases hy
  | cons l rest ih =>
    rw [orderly_cons] at horderly
    rcases definesFrom_cons.mp h with ⟨rfl, value, hitem⟩ | h
    · have hfirst := horderly.1
      rw [hitem] at hfirst
      exact hfresh (hfirst hsymbol)
    · refine ih (Nat.le_trans hcount (count_le_follow _)) ?_ horderly.2 h
      -- A scope becomes fresh only when it is opened, and its number is then a new one.
      cases l.2.item with
      | scopeBegin => exact fun _ => Nat.lt_succ_of_le hcount
      | label other value => exact fun hboth => hfresh (Bool.and_eq_true_iff.mp hboth).1
      | instruction i => exact hfresh
      | _ => exact fun hfalse => by cases hfalse

/-! ## The scopes of a call -/

section Call

variable {arguments : List Expr} {before opening body closing behind : List (Nat × Statement)}

theorem run_opening (h : opening.map (·.2.item) = MacroTable.opening arguments) :
    σ.run opening = ⟨(σ.count + 2) :: (σ.count + 1) :: σ.inner, σ.count + 2⟩ := by
  obtain ⟨outer, hidden, inner, parameters, rfl, houter, hhidden, hinner, hparameters⟩ :=
    MacroTable.exists_opening h
  rw [run_cons, run_append, run_cons,
    run_labels (.of_imp (MacroTable.hidden_bindArguments hhidden)),
    run_labels (.of_imp (MacroTable.unhidden_bindParameters hparameters)), houter, hinner]
  rfl

theorem run_closing (h : closing.map (·.2.item) = [.scopeEnd, .scopeEnd]) :
    σ.run closing = ⟨σ.inner.tail.tail, σ.count⟩ := by
  rw [run, ← List.foldl_map (f := fun l : Nat × Statement => l.2.item), h]
  rfl

/-- What is defined before the body of a call: hidden names in the outer one of its scopes, and
others in the inner one. -/
theorem definesFrom_opening (h : opening.map (·.2.item) = MacroTable.opening arguments)
    (hd : DefinesFrom σ opening scope symbol) :
    scope = σ.count + 1 ∧ symbol.Hidden ∨ scope = σ.count + 2 ∧ ¬ symbol.Hidden := by
  obtain ⟨outer, hidden, inner, parameters, rfl, houter, hhidden, hinner, hparameters⟩ :=
    MacroTable.exists_opening h
  have hfirst := MacroTable.hidden_bindArguments hhidden
  have hsecond := MacroTable.unhidden_bindParameters hparameters
  rw [definesFrom_cons, definesFrom_append, definesFrom_cons, run_labels (.of_imp hfirst), houter,
    hinner] at hd
  -- Either scope is opened by a statement of its own, and then the labels in it follow.
  rcases hd with ⟨-, value, hvalue⟩ | hd | ⟨-, value, hvalue⟩ | hd
  · cases hvalue
  · obtain ⟨rfl, l, hl, value, hvalue⟩ := definesFrom_labels (.of_imp hfirst) hd
    obtain ⟨other, value', hitem, hhidden⟩ := hfirst l hl
    obtain ⟨rfl, -⟩ := Item.label.inj (hvalue.symm.trans hitem)
    exact .inl ⟨rfl, hhidden⟩
  · cases hvalue
  · obtain ⟨rfl, l, hl, value, hvalue⟩ := definesFrom_labels (.of_imp hsecond) hd
    obtain ⟨other, value', hitem, hother⟩ := hsecond l hl
    obtain ⟨rfl, -⟩ := Item.label.inj (hvalue.symm.trans hitem)
    exact .inr ⟨rfl, hother⟩

theorem not_definesFrom_closing (h : closing.map (·.2.item) = [.scopeEnd, .scopeEnd]) :
    ¬ DefinesFrom σ closing scope symbol := by
  rintro ⟨y, hy, -, value, hvalue⟩
  have hitem : y.2.2.item = .scopeEnd :=
    forall_of_items (P := fun item => item = .scopeEnd) h (by simp) y.2 (mem_of_mem_reached hy)
  rw [hitem] at hvalue
  cases hvalue

theorem above_opening (h : opening.map (·.2.item) = MacroTable.opening arguments) :
    Above ((σ.count + 2) :: (σ.count + 1) :: σ.inner) (σ.count + 2) 0 (σ.run opening) := by
  rw [run_opening h]
  exact ⟨⟨[], rfl, rfl, by simp⟩, Nat.le_refl _⟩

/-- **The scope of the arguments** holds hidden names only, if the body closes exactly the scopes
that it opens. -/
theorem hidden_of_definesFrom_outer (hσ : σ.Numbered)
    (hopening : opening.map (·.2.item) = MacroTable.opening arguments)
    (hclosing : closing.map (·.2.item) = [.scopeEnd, .scopeEnd]) (hbody : Balanced body)
    (h : DefinesFrom σ (opening ++ (body ++ (closing ++ behind))) (σ.count + 1) symbol) :
    symbol.Hidden := by
  obtain ⟨⟨⟨nested, hnil, hinner, -⟩, hcount⟩, hall⟩ := (above_opening hopening).run hbody
  rcases definesFrom_append.mp h with h | h
  · rcases definesFrom_opening hopening h with ⟨-, hhidden⟩ | ⟨hscope, -⟩
    · exact hhidden
    · omega
  rcases definesFrom_append.mp h with ⟨y, hy, hscope, -⟩ | h
  · -- Inside of the body the innermost scope is that of the parameters, or a later one.
    obtain ⟨d, ⟨⟨nested, -, hinner, hlater⟩, -⟩⟩ := hall y hy
    rw [innermost, hinner] at hscope
    cases nested with
    | nil => simp at hscope
    | cons first rest =>
      have hfirst := hlater first List.mem_cons_self
      simp only [List.cons_append, List.headD_cons] at hscope
      omega
  rcases definesFrom_append.mp h with h | h
  · exact absurd h (not_definesFrom_closing hclosing)
  · -- Behind the body the scope is closed.
    obtain rfl := List.length_eq_zero_iff.mp hnil
    refine absurd h (not_definesFrom_of_closed (Nat.zero_lt_succ _) ?_ ?_)
    · rw [run_closing hclosing]
      exact Nat.le_of_succ_le hcount
    · rw [run_closing hclosing, hinner]
      exact fun hmem => absurd (hσ _ hmem).2 (Nat.not_succ_le_self _)

/-- Behind the opening of a call with arguments the scope is not fresh. -/
theorem fresh_opening (h : opening.map (·.2.item) = MacroTable.opening arguments)
    (harguments : arguments ≠ []) (fresh : Bool) : freshBehind fresh opening = false := by
  obtain ⟨outer, hidden, inner, parameters, rfl, -, -, -, hparameters⟩ :=
    MacroTable.exists_opening h
  rcases List.eq_nil_or_concat parameters with rfl | ⟨rest, last, rfl⟩
  · have hlength := congrArg List.length hparameters
    rw [MacroTable.length_bindParameters] at hlength
    exact absurd (List.length_eq_zero_iff.mp hlength.symm) harguments
  · obtain ⟨symbol, value, hitem, hsymbol⟩ :=
      MacroTable.unhidden_bindParameters hparameters last (by simp)
    simp [freshBehind, hitem, Item.freshBehind, hsymbol]

/-- **The scope of the parameters** holds no hidden names. -/
theorem not_hidden_of_definesFrom_inner {fresh : Bool}
    (hopening : opening.map (·.2.item) = MacroTable.opening arguments) (harguments : arguments ≠ [])
    (horderly : Orderly fresh (opening ++ behind))
    (h : DefinesFrom σ (opening ++ behind) (σ.count + 2) symbol) : ¬ symbol.Hidden := by
  intro hsymbol
  rw [orderly_append, fresh_opening hopening harguments] at horderly
  rcases definesFrom_append.mp h with h | h
  · rcases definesFrom_opening hopening h with ⟨hscope, -⟩ | ⟨-, hunhidden⟩
    · omega
    · exact hunhidden hsymbol
  · rw [run_opening hopening] at h
    exact absurd (lt_of_definesFrom_hidden (Nat.le_refl _) (by simp) horderly.2 hsymbol h)
      (Nat.lt_irrefl _)

end Call

end ScopeState

/-! ## Values of parameters -/

namespace Environment

variable {env : Environment} {leaves : List (Nat × Statement)}

theorem scopeState_follow (item : Item) :
    (env.follow item).scopeState = env.scopeState.follow item := by
  cases item with
  | byteRange offset length bytes =>
    simp only [follow]
    split <;> rfl
  | setPc target | advance target fill =>
    simp only [follow]
    split <;> rfl
  | _ => rfl

theorem scopeState_layoutEnd :
    (env.layoutEnd leaves).scopeState = env.scopeState.run leaves := by
  induction leaves generalizing env with
  | nil => rfl
  | cons l rest ih =>
    rw [ScopeState.run_cons, ← scopeState_follow]
    exact ih

theorem layoutEnd_cons (l : Nat × Statement) :
    env.layoutEnd (l :: leaves) = (env.follow l.2.item).layoutEnd leaves := rfl

theorem layoutEnd_append (more : List (Nat × Statement)) :
    env.layoutEnd (leaves ++ more) = (env.layoutEnd leaves).layoutEnd more :=
  List.foldl_append

theorem lookup_layoutEnd (symbol : Symbol) :
    (env.layoutEnd leaves).lookup symbol =
      env.lookupIn (env.scopeState.run leaves).inner symbol := by
  rw [← lookupIn_inner, lookupIn_of_restart (restart_layoutEnd leaves), ← scopeState_layoutEnd]
  rfl

/-- Labels leave a layout where it is. -/
theorem layout_labels (env : Environment) (h : Labels leaves) :
    env.layoutEnd leaves = env ∧ ∀ l ∈ leaves, (env, l) ∈ env.layout leaves := by
  induction leaves with
  | nil => exact ⟨rfl, by simp⟩
  | cons l rest ih =>
    obtain ⟨symbol, value, hitem⟩ := h l List.mem_cons_self
    obtain ⟨hend, hall⟩ := ih fun l hl => h l (List.mem_cons_of_mem _ hl)
    have hstay : env.follow l.2.item = env := by rw [hitem]; rfl
    rw [layoutEnd, List.foldl_cons, layout, reached_cons, hstay]
    refine ⟨hend, List.forall_mem_cons.mpr ⟨List.mem_cons_self, fun l hl => ?_⟩⟩
    exact List.mem_cons_of_mem _ (hall l hl)

theorem layout_cons (l : Nat × Statement) :
    env.layout (l :: leaves) = (env, l) :: (env.follow l.2.item).layout leaves := rfl

theorem layout_append (more : List (Nat × Statement)) :
    env.layout (leaves ++ more) = env.layout leaves ++ (env.layoutEnd leaves).layout more :=
  reached_append

theorem lookupIn_nested {name : String} {nested : List Nat} (base : List Nat)
    (h : ∀ scope ∈ nested, (env.localsOf scope).get? name = none) :
    env.lookupIn (nested ++ base) (.inScope name) = env.lookupIn base (.inScope name) := by
  induction nested with
  | nil => rfl
  | cons scope rest ih =>
    rw [List.cons_append, lookupIn_cons, h scope List.mem_cons_self, Option.none_or]
    exact ih fun scope hscope => h scope (List.mem_cons_of_mem _ hscope)

/-- A scope that does not hold a name does not matter to what is seen of it. -/
theorem lookup_enterScope {symbol : Symbol}
    (h : ∀ name, symbol = .inScope name → (env.localsOf (env.scopeCount + 1)).get? name = none) :
    env.enterScope.lookup symbol = env.lookup symbol := by
  have hopen : env.enterScope.lookup symbol =
      env.lookupIn ((env.scopeCount + 1) :: env.inner) symbol := by
    rw [← lookupIn_inner]
    exact lookupIn_of_restart rfl _ symbol
  rw [hopen, ← lookupIn_inner]
  cases symbol with
  | global name => rw [lookupIn_global, lookupIn_global]
  | inScope name => rw [lookupIn_cons, h name rfl, Option.none_or]

section Call

variable {arguments : List Expr} {before opening body closing behind : List (Nat × Statement)}

theorem layoutEnd_opening (env : Environment)
    (h : opening.map (·.2.item) = MacroTable.opening arguments) :
    env.layoutEnd opening = env.enterScope.enterScope := by
  obtain ⟨outer, hidden, inner, parameters, rfl, houter, hhidden, hinner, hparameters⟩ :=
    MacroTable.exists_opening h
  rw [layoutEnd_cons, houter, layoutEnd_append, layoutEnd_cons, hinner,
    (layout_labels _ (.of_imp (MacroTable.hidden_bindArguments hhidden))).1,
    (layout_labels _ (.of_imp (MacroTable.unhidden_bindParameters hparameters))).1]
  rfl

/-- Where the argument and the parameter with a number are bound. -/
theorem layout_opening (env : Environment)
    (h : opening.map (·.2.item) = MacroTable.opening arguments) {i : Nat} {argument : Expr}
    (hi : arguments[i]? = some argument) :
    (∃ l, (env.enterScope, l) ∈ env.layout opening ∧
        l.2.item = .label (MacroTable.hiddenName (i + 1)) argument) ∧
      ∃ l, (env.enterScope.enterScope, l) ∈ env.layout opening ∧
        l.2.item = .label (MacroTable.parameterName (i + 1))
          (.symbol (MacroTable.hiddenName (i + 1))) := by
  obtain ⟨outer, hidden, inner, parameters, rfl, houter, hhidden, hinner, hparameters⟩ :=
    MacroTable.exists_opening h
  obtain ⟨hend, hfirst⟩ := layout_labels env.enterScope
    (.of_imp (MacroTable.hidden_bindArguments hhidden))
  obtain ⟨-, hsecond⟩ := layout_labels env.enterScope.enterScope
    (.of_imp (MacroTable.unhidden_bindParameters hparameters))
  -- The outer scope holds the arguments under hidden names, and the inner one the parameters.
  have hlayout : env.layout (outer :: (hidden ++ inner :: parameters)) =
      (env, outer) :: (env.enterScope.layout hidden ++
        (env.enterScope, inner) :: env.enterScope.enterScope.layout parameters) := by
    have hbegin : ∀ e : Environment, e.follow .scopeBegin = e.enterScope := fun _ => rfl
    rw [layout_cons, houter, hbegin, layout_append, hend, layout_cons, hinner, hbegin]
  have hargument : Item.label (MacroTable.hiddenName (i + 1)) argument ∈
      hidden.map (·.2.item) := by
    rw [hhidden, MacroTable.mem_bindArguments]
    exact ⟨i, argument, hi, by rw [Nat.add_comm]⟩
  have hparameter : Item.label (MacroTable.parameterName (i + 1))
      (.symbol (MacroTable.hiddenName (i + 1))) ∈ parameters.map (·.2.item) := by
    rw [hparameters, MacroTable.mem_bindParameters]
    exact ⟨i, (List.getElem?_eq_some_iff.mp hi).1, by rw [Nat.add_comm]⟩
  obtain ⟨l, hl, hitem⟩ := List.mem_map.mp hargument
  obtain ⟨l', hl', hitem'⟩ := List.mem_map.mp hparameter
  rw [hlayout]
  exact ⟨⟨l, .tail _ (List.mem_append_left _ (hfirst l hl)), hitem⟩,
    l', .tail _ (List.mem_append_right _ (.tail _ (hsecond l' hl'))), hitem'⟩

theorem scopeCount_layoutEnd (hrested : env.scopeState = {}) :
    (env.layoutEnd before).scopeCount = (ScopeState.behind before).count := by
  have hscopes : (env.layoutEnd before).scopeState = env.scopeState.run before :=
    scopeState_layoutEnd
  rw [hrested] at hscopes
  exact congrArg ScopeState.count hscopes

/-- A label of a scope that is not open yet is defined by what comes. -/
theorem definesFrom_of_bound
    (hbound : ∀ scope name, ((env.localsOf scope).get? name).isSome →
      ScopeState.Defines (before ++ behind) scope (.inScope name)) {scope : Nat} {name : String}
    (hscope : (ScopeState.behind before).count < scope)
    (hsome : (((env.layoutEnd before).localsOf scope).get? name).isSome) :
    (ScopeState.behind before).DefinesFrom behind scope (.inScope name) := by
  rw [localsOf_of_restart (restart_layoutEnd before)] at hsome
  exact (hbound scope name hsome).definesFrom hscope

/-- The scope of the arguments does not hide what the caller sees. -/
theorem lookup_arguments (hopening : opening.map (·.2.item) = MacroTable.opening arguments)
    (hclosing : closing.map (·.2.item) = [.scopeEnd, .scopeEnd]) (hbody : Balanced body)
    (hrested : env.scopeState = {})
    (hbound : ∀ scope name, ((env.localsOf scope).get? name).isSome →
      ScopeState.Defines (before ++ (opening ++ (body ++ (closing ++ behind)))) scope
        (.inScope name)) {symbol : Symbol} (hsymbol : ¬ symbol.Hidden) :
    (env.layoutEnd before).enterScope.lookup symbol = (env.layoutEnd before).lookup symbol := by
  refine lookup_enterScope ?_
  rintro name rfl
  rw [← Option.not_isSome_iff_eq_none, scopeCount_layoutEnd hrested]
  intro hsome
  have hdefines := definesFrom_of_bound hbound (Nat.lt_succ_self _) hsome
  exact hsymbol (ScopeState.hidden_of_definesFrom_outer (ScopeState.numbered_behind before) hopening
    hclosing hbody hdefines)

/-- The scope of the parameters does not hide the arguments. -/
theorem lookup_parameters (hopening : opening.map (·.2.item) = MacroTable.opening arguments)
    (harguments : arguments ≠ []) (hrested : env.scopeState = {})
    (hbound : ∀ scope name, ((env.localsOf scope).get? name).isSome →
      ScopeState.Defines (before ++ (opening ++ behind)) scope (.inScope name))
    (horderly : Orderly false (before ++ (opening ++ behind))) {symbol : Symbol}
    (hsymbol : symbol.Hidden) :
    (env.layoutEnd before).enterScope.enterScope.lookup symbol =
      (env.layoutEnd before).enterScope.lookup symbol := by
  refine lookup_enterScope ?_
  rintro name rfl
  have hscope : (env.layoutEnd before).enterScope.scopeCount + 1 =
      (ScopeState.behind before).count + 2 := congrArg (· + 2) (scopeCount_layoutEnd hrested)
  rw [← Option.not_isSome_iff_eq_none, hscope]
  intro hsome
  have hdefines := definesFrom_of_bound hbound (Nat.lt_add_of_pos_right Nat.two_pos) hsome
  rw [orderly_append] at horderly
  exact ScopeState.not_hidden_of_definesFrom_inner hopening harguments horderly.2 hdefines hsymbol

/-- **Parameters have the values of the arguments at the call**, as they are seen behind the opening
of the call. -/
theorem exists_argument_value {leaves : List (Nat × Statement)}
    (hleaves : leaves = before ++ (opening ++ (body ++ (closing ++ behind))))
    (hopening : opening.map (·.2.item) = MacroTable.opening arguments)
    (hclosing : closing.map (·.2.item) = [.scopeEnd, .scopeEnd]) (hbody : Balanced body)
    (hrested : env.scopeState = {}) (hsettled : env.Settled leaves)
    (hbound : ∀ scope name, ((env.localsOf scope).get? name).isSome →
      ScopeState.Defines leaves scope (.inScope name))
    (horderly : Orderly false leaves) {i : Nat} {argument : Expr}
    (hi : arguments[i]? = some argument) (hvisible : argument.Visible) :
    ∃ v, argument.evaluate (env.layoutEnd before).valuation = .ok v ∧
      (env.layoutEnd (before ++ opening)).lookup (MacroTable.parameterName (i + 1)) = some v := by
  subst hleaves
  have harguments : arguments ≠ [] := List.ne_nil_of_mem (List.mem_of_getElem? hi)
  have hmem : ∀ x ∈ (env.layoutEnd before).layout opening,
      x ∈ env.layout (before ++ (opening ++ (body ++ (closing ++ behind)))) := by
    intro x hx
    rw [layout_append, layout_append]
    exact List.mem_append_right _ (List.mem_append_left _ hx)
  obtain ⟨⟨l, hl, hitem⟩, l', hl', hitem'⟩ := layout_opening (env.layoutEnd before) hopening hi
  obtain ⟨v, hv, hhidden⟩ := hsettled _ (hmem _ hl) _ _ hitem
  obtain ⟨v', hv', hparameter⟩ := hsettled _ (hmem _ hl') _ _ hitem'
  -- The parameter is bound to the hidden name, and that is bound to the argument.
  have hvalue : v' = v := by
    have hlookup : (env.layoutEnd before).enterScope.enterScope.valuation.lookup
        (MacroTable.hiddenName (i + 1)) = some v :=
      (lookup_parameters hopening harguments hrested hbound horderly
        (MacroTable.hidden_hiddenName _)).trans hhidden
    rw [Expr.evaluate, hlookup] at hv'
    exact (Except.ok.inj hv').symm
  have hpc : (env.layoutEnd before).enterScope.valuation.pc = (env.layoutEnd before).valuation.pc :=
    rfl
  have hseen : argument.evaluate (env.layoutEnd before).enterScope.valuation =
      argument.evaluate (env.layoutEnd before).valuation :=
    hvisible.evaluate_congr
      (fun _ hsymbol => lookup_arguments hopening hclosing hbody hrested hbound hsymbol) hpc
  refine ⟨v, hseen.symm.trans hv, ?_⟩
  rw [layoutEnd_append, layoutEnd_opening _ hopening, hparameter, hvalue]

end Call

theorem inner_layoutEnd :
    (env.layoutEnd leaves).inner = (env.scopeState.run leaves).inner :=
  congrArg ScopeState.inner scopeState_layoutEnd

/-- **A label is seen from inside** of statements that close no scopes but their own, if the nested
scopes do not hold its name. -/
theorem lookup_inside {symbol : Symbol} {inside : List (Nat × Statement)} {depth : Nat}
    (hrested : env.scopeState = {}) (hinside : depthBehind? 0 inside = some depth)
    (hnested : ∀ scope ∈ (env.layoutEnd (leaves ++ inside)).inner,
      scope ∉ (env.layoutEnd leaves).inner → ∀ name, symbol = .inScope name →
        (env.localsOf scope).get? name = none) :
    (env.layoutEnd (leaves ++ inside)).lookup symbol = (env.layoutEnd leaves).lookup symbol := by
  have hnumbered : (env.scopeState.run leaves).Numbered := by
    rw [hrested]
    exact ScopeState.numbered_behind leaves
  simp only [inner_layoutEnd, lookup_layoutEnd, ScopeState.run_append] at hnested ⊢
  generalize env.scopeState.run leaves = σ at *
  have habove : ScopeState.Above σ.inner σ.count 0 σ :=
    ⟨⟨[], rfl, rfl, by simp⟩, Nat.le_refl _⟩
  obtain ⟨nested, -, hinner, hlater⟩ := (habove.run hinside).1.inner
  rw [hinner] at hnested ⊢
  cases symbol with
  | global name => rw [lookupIn_global, lookupIn_global]
  | inScope name =>
    refine lookupIn_nested σ.inner fun scope hscope => ?_
    refine hnested scope (List.mem_append_left _ hscope) (fun hmem => ?_) name rfl
    exact absurd (hnumbered scope hmem).2 (Nat.not_le_of_lt (hlater scope hscope))

end Environment

/-! ## The body of a call -/

namespace Node

/-- The nodes of a sequence. A statement has none. -/
def children : Node → List Node
  | leaf _ _ => []
  | sequence _ _ children => children

/-- Whether a node is a statement. -/
def isLeaf : Node → Bool
  | leaf _ _ => true
  | sequence _ _ _ => false

/-- The nodes of the body among those that are in the place of a call with so many arguments. -/
def callBody (count : Nat) (children : List Node) : List Node :=
  (children.drop (MacroTable.bodyPlace count 0)).dropLast.dropLast

variable {arguments : List Expr} {before behind : List Node}

theorem Frame.callBody_eq (h : Frame arguments before behind) (body : List Node) :
    callBody arguments.length (before ++ (body ++ behind)) = body := by
  obtain ⟨first, second, rfl⟩ : ∃ first second, behind = [first, second] := by
    match behind, h.behind_length with
    | [first, second], _ => exact ⟨first, second, rfl⟩
  rw [callBody, ← h.before_length, List.drop_left]
  have hpair : body ++ [first, second] = (body ++ [first]) ++ [second] := by simp
  rw [hpair, List.dropLast_concat, List.dropLast_concat]

theorem before_body {root : Node} {π : List Nat} {number : Nat} {call : Location} {body : List Node}
    (hcall : root.at? π = some (.sequence number call (before ++ (body ++ behind)))) :
    root.before (π ++ [before.length]) = root.before π ++ leavesAll before := by
  rw [before_append hcall]
  cases h : (before ++ (body ++ behind))[before.length]? <;> simp [Node.before, h]

/-- The statements before a position inside of a body are those before the call, those before the
body, and some at the beginning of the body. -/
theorem exists_before_body {root n : Node} {π ρ : List Nat} {number k : Nat} {call : Location}
    {body : List Node}
    (hcall : root.at? π = some (.sequence number call (before ++ (body ++ behind))))
    (hk : k < body.length) (hn : root.at? (π ++ (before.length + k) :: ρ) = some n) :
    ∃ inside rest, leavesAll body = inside ++ rest ∧
      root.before (π ++ (before.length + k) :: ρ) =
        root.before π ++ (leavesAll before ++ inside) := by
  rw [at?_append, hcall] at hn
  obtain ⟨_, _, children, c, heq, hc, hn⟩ := at?_cons hn
  obtain ⟨-, -, rfl⟩ := Node.sequence.inj heq
  have hbody : body[k]? = some c := by
    rw [List.getElem?_append_right (Nat.le_add_right _ _), Nat.add_sub_cancel_left,
      List.getElem?_append_left hk] at hc
    exact hc
  -- The child that the position is in divides the body, and the position divides that child.
  obtain ⟨rest, hrest⟩ := leaves_eq_before hn
  have hsplit : body = body.take k ++ (c :: body.drop (k + 1)) := by
    obtain ⟨hk, rfl⟩ := List.getElem?_eq_some_iff.mp hbody
    simp
  refine ⟨leavesAll (body.take k) ++ c.before ρ,
    n.leaves ++ rest ++ leavesAll (body.drop (k + 1)), ?_, ?_⟩
  · have hall := congrArg leavesAll hsplit
    rw [leavesAll_append, leavesAll, hrest] at hall
    rw [hall]
    simp only [List.append_assoc]
  · rw [before_append hcall]
    simp only [Node.before, hc, Option.map_some, Option.getD_some, List.take_length_add_append,
      List.take_append_of_le_length (Nat.le_of_lt hk), leavesAll_append, List.append_assoc]

end Node

namespace Assembly

variable {options : Options} {program : Program} {diagnostics : Diagnostics}

/-- The final environment at a position of the program in the end: in the scopes that are open
there, and at the address there. -/
def environmentAt (options : Options) (program : Program) (diagnostics : Diagnostics)
    (π : List Nat) : Environment :=
  (ofProgram options program diagnostics).environment.layoutEnd
    ((finished options program diagnostics).program.root.before π)

theorem unhidden_placeAt (address : Nat) (h : program.Unhidden) :
    (placeAt address program).Unhidden :=
  List.forall_mem_cons.mpr ⟨trivial, h⟩

/-- **Arguments are valued at the call.** A program that was read has no hidden names, wherever it
is placed. Take such a program that is assembled without a fault, and a call that some pass expands,
be it a call of the program or of the body of a macro. What is in its place in the end holds what
was made of the body of the macro. If that closes exactly the scopes that it opens, then at each of
its statements a parameter has the value that the argument has at the call, in the scopes and at the
address there, unless the statement stands in a nested scope that defines the name of the parameter
anew. -/
theorem arguments_valued_at_call :
    (∀ cpu fs stdin inputs address, (Source.read cpu fs stdin inputs).program.Unhidden ∧
      (placeAt address (Source.read cpu fs stdin inputs).program).Unhidden) ∧
    ∀ (options : Options) (program : Program) (diagnostics : Diagnostics), program.Unhidden →
      (ofProgram options program diagnostics).diagnostics.hasErrors = false →
      ∀ entry ∈ expansions options program diagnostics, ∀ π number call name arguments,
        entry.before.program.root.at? π = some (.leaf number ⟨call, .invoke name arguments⟩) →
        ∃ m children, entry.before.context.macros.get? name = some m ∧
          (finished options program diagnostics).program.root.at? π =
            some (.sequence number call children) ∧
          (Node.callBody arguments.length children).length = m.body.length ∧
          (Balanced (Node.leavesAll (Node.callBody arguments.length children)) →
            ∀ k < m.body.length, ∀ ρ leaf statement,
              (finished options program diagnostics).program.root.at?
                (π ++ MacroTable.bodyPlace arguments.length k :: ρ) = some (.leaf leaf statement) →
              ∀ i argument, arguments[i]? = some argument →
                (∀ scope ∈ (environmentAt options program diagnostics
                    (π ++ MacroTable.bodyPlace arguments.length k :: ρ)).inner,
                  scope ∉ (environmentAt options program diagnostics
                    (π ++ [MacroTable.bodyPlace arguments.length 0])).inner →
                  ¬ ScopeState.Defines (finished options program diagnostics).program.leaves scope
                    (MacroTable.parameterName (i + 1))) →
                ∃ v, argument.evaluate
                    (environmentAt options program diagnostics π).valuation = .ok v ∧
                  (environmentAt options program diagnostics
                    (π ++ MacroTable.bodyPlace arguments.length k :: ρ)).lookup
                      (MacroTable.parameterName (i + 1)) = some v) := by
  refine ⟨fun cpu fs stdin inputs address => ?_, ?_⟩
  · have hread := Source.unhidden_read cpu fs stdin inputs
    exact ⟨hread, unhidden_placeAt address hread⟩
  intro options program diagnostics hread hclean entry hentry π number call name arguments hcall
  obtain ⟨hplaced, hfinished, henvironment⟩ := placed_finished hclean
  have hexpanded := clean_expanded hfinished
  obtain ⟨m, before, behind, hm, hframe, hholds⟩ := call_expanded hexpanded hentry hcall
  obtain ⟨body, hbody, hat⟩ := call_finished hframe hholds
  obtain ⟨horderly, hentries⟩ := orderly_finished hread hexpanded
  refine ⟨m, _, hm, hat, by rw [hframe.callBody_eq, hbody], ?_⟩
  rw [hframe.callBody_eq]
  intro hbalanced k hk ρ leaf statement hleaf i argument hi hnested
  simp only [hframe.bodyPlace_eq, Nat.add_zero] at hleaf hnested ⊢
  -- The statements of the result: those before the call, the frame around its body, and the rest.
  obtain ⟨rest, hleaves⟩ := Node.leaves_eq_before hat
  simp only [Node.leaves, Node.leavesAll_append, List.append_assoc] at hleaves
  obtain ⟨inside, tail, hinside, hposition⟩ := Node.exists_before_body hat (hbody ▸ hk) hleaf
  have hvisible : argument.Visible := by
    obtain ⟨others, hothers⟩ := Node.leaves_eq_before hcall
    obtain ⟨fresh, hitem⟩ := (hentries entry hentry).leaves.exists_of_mem
      (l := (number, ⟨call, .invoke name arguments⟩)) (by
        rw [Program.leaves, hothers]
        simp [Node.leaves])
    exact hitem argument (List.mem_of_getElem? hi)
  have hrested : (finished options program diagnostics).context.env.scopeState = {} := by
    rw [← hplaced.rested, Environment.scopeState_restart]
  obtain ⟨v, hv, hparameter⟩ := Environment.exists_argument_value hleaves hframe.before_items
    hframe.behind_items hbalanced hrested hplaced.settled bound_finished horderly hi hvisible
  simp only [environmentAt, henvironment, hposition, Node.before_body hat] at hnested ⊢
  refine ⟨v, hv, ?_⟩
  -- What is seen at the beginning of the body is seen at the statement, for lack of a definition.
  rw [← hparameter, ← List.append_assoc]
  rw [← List.append_assoc] at hnested
  rw [hinside] at hbalanced
  obtain ⟨depth, hdepth⟩ := hbalanced.exists_depth
  refine Environment.lookup_inside hrested hdepth fun scope hscope hnot name hname => ?_
  rw [← Option.not_isSome_iff_eq_none]
  refine fun hsome => hnested scope hscope hnot ?_
  rw [hname]
  exact bound_finished scope name hsome

/-- A macro that hands its parameter on, one more, to another macro, which has a parameter of the
same name and uses it in a scope. -/
def handedOn : Program :=
  ⟨[.leaf 1 ⟨.topLevel, .macroBegin "inner"⟩,
    .leaf 2 ⟨.topLevel, .scopeBegin⟩,
    .leaf 3 ⟨.topLevel, .data .byte .little [.symbol (.inScope "1")]⟩,
    .leaf 4 ⟨.topLevel, .scopeEnd⟩,
    .leaf 5 ⟨.topLevel, .macroEnd⟩,
    .leaf 6 ⟨.topLevel, .macroBegin "outer"⟩,
    .leaf 7 ⟨.topLevel, .invoke "inner"
      [.chain (.symbol (.inScope "1")) [(.add, .constant 1)]]⟩,
    .leaf 8 ⟨.topLevel, .macroEnd⟩,
    .leaf 9 ⟨.topLevel, .invoke "outer" [.constant 7]⟩], 10⟩

/-- The call of the inner macro is valued where the parameter of the outer one is seen. -/
theorem arguments_valued_handedOn :
    (ofProgram {} handedOn {}).diagnostics.hasErrors = false ∧
      (environmentAt {} handedOn {} [8, 4]).lookup (MacroTable.parameterName 1) = some 7 ∧
      (environmentAt {} handedOn {} [8, 4, 5]).lookup (MacroTable.parameterName 1) = some 8 ∧
      ∃ v, (Expr.chain (.symbol (.inScope "1")) [(.add, .constant 1)]).evaluate
          (environmentAt {} handedOn {} [8, 4]).valuation = .ok v ∧
        (environmentAt {} handedOn {} [8, 4, 5]).lookup (MacroTable.parameterName 1) = some v := by
  have hclean : (ofProgram {} handedOn {}).diagnostics.hasErrors = false := by decide +kernel
  have hread : handedOn.Unhidden := by
    simp [handedOn, Program.Unhidden, Program.leaves, Program.root, Node.leaves, Node.leavesAll,
      Item.Unhidden, Expr.Visible, Expr.AllVisible, Symbol.Hidden]
  have hcall : (expansions {} handedOn {})[1]?.map (·.before.program.root.at? [8, 4]) =
      some (some (.leaf 14 ⟨.expansion .topLevel .topLevel, .invoke "inner"
        [.chain (.symbol (.inScope "1")) [(.add, .constant 1)]]⟩)) := rfl
  obtain ⟨entry, hentry, hcall⟩ := Option.map_eq_some_iff.mp hcall
  obtain ⟨m, children, -, hat, hlength, hvalue⟩ := arguments_valued_at_call.2 {} handedOn {} hread
    hclean entry (List.mem_of_getElem? hentry) [8, 4] 14 _ "inner" _ hcall
  have hbody : ((finished {} handedOn {}).program.root.at? [8, 4]).map (fun n =>
      (decide (Balanced (Node.leavesAll (Node.callBody 1 n.children))),
        (Node.callBody 1 n.children).length)) = some (true, 3) := by decide +kernel
  obtain ⟨leaf, statement, hleaf⟩ : ∃ leaf statement,
      (finished {} handedOn {}).program.root.at? [8, 4, 5] = some (.leaf leaf statement) := by
    have hkind : ((finished {} handedOn {}).program.root.at? [8, 4, 5]).map Node.isLeaf =
        some true := by decide +kernel
    obtain ⟨n, hn, hleaf⟩ := Option.map_eq_some_iff.mp hkind
    cases n with
    | leaf leaf statement => exact ⟨leaf, statement, hn⟩
    | sequence => cases hleaf
  rw [hat] at hbody
  obtain ⟨hbalanced, hthree⟩ := Prod.mk.inj (Option.some.inj hbody)
  refine ⟨hclean, by decide +kernel, by decide +kernel, ?_⟩
  have hk : 1 < m.body.length := by
    rw [← hlength]
    exact hthree ▸ Nat.one_lt_succ_succ 1
  exact hvalue (of_decide_eq_true hbalanced) 1 hk [] leaf statement hleaf 0 _ rfl
    (by decide +kernel)

/-- A macro that closes the scope of its parameters for a while. -/
def escapingBody : Program :=
  ⟨[.leaf 1 ⟨.topLevel, .label (.inScope "1") (.constant 3)⟩,
    .leaf 2 ⟨.topLevel, .macroBegin "m"⟩,
    .leaf 3 ⟨.topLevel, .scopeEnd⟩,
    .leaf 4 ⟨.topLevel, .data .byte .little [.symbol (.inScope "1")]⟩,
    .leaf 5 ⟨.topLevel, .scopeBegin⟩,
    .leaf 6 ⟨.topLevel, .macroEnd⟩,
    .leaf 7 ⟨.topLevel, .invoke "m" [.constant 7]⟩], 8⟩

/-- In a body that closes the scope of its parameters, a parameter is not seen behind that, but a
label of the caller with the same name is. -/
theorem parameter_unseen_escapingBody :
    escapingBody.Unhidden ∧
      (ofProgram {} escapingBody {}).diagnostics.hasErrors = false ∧
      (∃ entry ∈ expansions {} escapingBody {}, entry.before.program.root.at? [6] =
        some (.leaf 7 ⟨.topLevel, .invoke "m" [.constant 7]⟩)) ∧
      ((finished {} escapingBody {}).program.root.at? [6, 5]).map (·.leaves.map (·.2.item.text)) =
        some ["Byte _1"] ∧
      (∀ scope ∈ (environmentAt {} escapingBody {} [6, 5]).inner,
        scope ∈ (environmentAt {} escapingBody {} [6, 4]).inner) ∧
      (environmentAt {} escapingBody {} [6, 5]).lookup (MacroTable.parameterName 1) = some 3 ∧
      (Expr.constant 7).evaluate (environmentAt {} escapingBody {} [6]).valuation = .ok 7 := by
  refine ⟨?_, by decide +kernel, ?_, by decide +kernel, by decide +kernel, by decide +kernel, rfl⟩
  · simp [escapingBody, Program.Unhidden, Program.leaves, Program.root, Node.leaves,
      Node.leavesAll, Item.Unhidden, Expr.Visible, Symbol.Hidden]
  · have hcall : (expansions {} escapingBody {})[0]?.map (·.before.program.root.at? [6]) =
        some (some (.leaf 7 ⟨.topLevel, .invoke "m" [.constant 7]⟩)) := rfl
    obtain ⟨entry, hentry, hcall⟩ := Option.map_eq_some_iff.mp hcall
    exact ⟨entry, List.mem_of_getElem? hentry, hcall⟩

end Assembly

end Assembler6502
