import Assembler6502.Proofs.Layout
import Mathlib.Logic.Function.Basic

/-!
# Visibility of labels

A local label is sought from the innermost open scope outwards, so what a walk sees of the local
labels depends on the scopes that are open. Every scope has a number of its own and is entered
once in a walk, hence it always stands inside the same scopes. Binding a visible label again to
the value that it has may enter it into a further scope, but no open scopes that a walk ever meets
see a difference: where they see the new entry they saw the value before.

## Main definitions

* `Nesting`, `Nesting.Admits`: which scopes each scope stands in, and the open scopes that fit
* `Environment.lookupIn`: the value of a label as given open scopes see it
* `Environment.Agrees`: environments at the same place in which all open scopes see the same

## Main results

* `Environment.exists_nesting`: a layout has a nesting
* `Environment.agrees_bind`: binding a label to its value changes nothing that can be seen
-/

namespace Assembler6502

/-- The scopes that each scope stands in, the innermost first. -/
abbrev Nesting := Nat → List Nat

namespace Nesting

/-- Open scopes, the innermost first, stand in each other as a nesting says. The outermost scope,
which is always open, is not among them. -/
def Admits (ν : Nesting) : List Nat → Prop
  | [] => True
  | scope :: rest => 0 < scope ∧ ν scope = rest ∧ Admits ν rest

theorem Admits.tail {ν : Nesting} {stack : List Nat} (h : ν.Admits stack) :
    ν.Admits stack.tail := by
  cases stack with
  | nil => exact h
  | cons scope rest => exact h.2.2

theorem Admits.congr {ν ν' : Nesting} {stack : List Nat} (h : ν.Admits stack)
    (heq : ∀ scope ∈ stack, ν' scope = ν scope) : ν'.Admits stack := by
  induction stack with
  | nil => trivial
  | cons scope rest ih =>
    obtain ⟨hpos, hin, hrest⟩ := h
    refine ⟨hpos, (heq scope List.mem_cons_self).trans hin, ih hrest fun n hn => ?_⟩
    exact heq n (List.mem_cons_of_mem _ hn)

end Nesting

namespace Environment

/-! ## Labels as open scopes see them -/

/-- The value of a label as given open scopes see it. -/
def lookupIn (env : Environment) (stack : List Nat) (symbol : Symbol) : Option Value :=
  { env with inner := stack }.lookup symbol

section LookupIn

variable {env : Environment} {name : String}

theorem lookupIn_inner (symbol : Symbol) : env.lookupIn env.inner symbol = env.lookup symbol := rfl

@[simp] theorem lookupIn_global (stack : List Nat) :
    env.lookupIn stack (.global name) = env.globals.get? name := rfl

@[simp] theorem lookupIn_nil :
    env.lookupIn [] (.inScope name) = (env.localsOf 0).get? name := by
  simp [lookupIn, lookup, scopes, localsOf]

@[simp] theorem lookupIn_cons (scope : Nat) (rest : List Nat) :
    env.lookupIn (scope :: rest) (.inScope name) =
      ((env.localsOf scope).get? name).or (env.lookupIn rest (.inScope name)) := by
  simp only [lookupIn, lookup, scopes, localsOf, List.cons_append, List.findSome?]
  split <;> simp_all

end LookupIn

/-! ## Agreement -/

/-- Two environments are at the same place, and the open scopes that a nesting admits see the same
labels in both. -/
structure Agrees (ν : Nesting) (e f : Environment) : Prop where
  place : f = { e with globals := f.globals, locals := f.locals }
  lookupIn : ∀ stack, ν.Admits stack → ∀ symbol, e.lookupIn stack symbol = f.lookupIn stack symbol

namespace Agrees

variable {ν : Nesting} {e f g : Environment}

theorem refl (ν : Nesting) (e : Environment) : Agrees ν e e :=
  ⟨rfl, fun _ _ _ => rfl⟩

theorem symm (h : Agrees ν e f) : Agrees ν f e :=
  ⟨by rw [h.place], fun stack hs symbol => (h.lookupIn stack hs symbol).symm⟩

theorem trans (h : Agrees ν e f) (h' : Agrees ν f g) : Agrees ν e g :=
  ⟨by rw [h'.place, h.place], fun stack hs symbol =>
    (h.lookupIn stack hs symbol).trans (h'.lookupIn stack hs symbol)⟩

theorem inner (h : Agrees ν e f) : f.inner = e.inner := by rw [h.place]

theorem pc (h : Agrees ν e f) : f.pc = e.pc := by rw [h.place]

theorem lookup (h : Agrees ν e f) (hν : ν.Admits e.inner) (symbol : Symbol) :
    f.lookup symbol = e.lookup symbol := by
  rw [← lookupIn_inner, ← lookupIn_inner, h.inner]
  exact (h.lookupIn e.inner hν symbol).symm

theorem valuation (h : Agrees ν e f) (hν : ν.Admits e.inner) : f.valuation = e.valuation := by
  simp only [Environment.valuation, Valuation.mk.injEq]
  exact ⟨funext (h.lookup hν), h.pc⟩

theorem of_place {e' f' : Environment} (h : Agrees ν e f)
    (hg : e'.globals = e.globals ∧ f'.globals = f.globals)
    (hl : e'.locals = e.locals ∧ f'.locals = f.locals)
    (hp : f' = { e' with globals := f'.globals, locals := f'.locals }) : Agrees ν e' f' := by
  refine ⟨hp, fun stack hs symbol => ?_⟩
  have := h.lookupIn stack hs symbol
  cases symbol <;>
    simpa [Environment.lookupIn, Environment.lookup, scopes, localsOf, hg, hl] using this

/-- Agreement is kept where a statement is followed. -/
theorem follow (h : Agrees ν e f) (hν : ν.Admits e.inner) (item : Item) :
    Agrees ν (e.follow item) (f.follow item) := by
  refine h.of_place ⟨globals_follow item, globals_follow item⟩
    ⟨locals_follow item, locals_follow item⟩ ?_
  have hv := h.valuation hν
  have hp := h.place
  cases item with
  | byteRange offset length bytes =>
    simp only [Environment.follow, hv]
    split
    · rw [hp]
      rfl
    · exact hp
  | setPc target | advance target fill =>
    simp only [Environment.follow, hv]
    split <;> (rw [hp]; rfl)
  | _ =>
    rw [hp]
    rfl

theorem followable (h : Agrees ν e f) (hν : ν.Admits e.inner) {item : Item}
    (he : e.Followable item) : f.Followable item := by
  have hv := h.valuation hν
  have hi := h.inner
  cases item <;> simp_all [Followable]

theorem restart (h : Agrees ν e f) : Agrees ν e.restart f.restart :=
  h.of_place ⟨rfl, rfl⟩ ⟨rfl, rfl⟩ rfl

end Agrees

/-! ## Binding a label to the value that it has -/

section Bind

variable {ν : Nesting} {env : Environment} {symbol : Symbol} {v : Value}

theorem localsOf_bind (name : String) (scope : Nat) :
    (env.bind (.inScope name) v).localsOf scope =
      if env.innermostScope = scope then (env.localsOf scope).insert name v
      else env.localsOf scope := by
  by_cases h : env.innermostScope = scope
  · subst h
    simp [bind, localsOf]
  · simp [bind, localsOf, h]

/-- Where the innermost scope is the outermost one, a local label is bound to its value already. -/
theorem localsOf_bind_of_nil {name : String} (hi : env.inner = [])
    (hv : env.lookup (.inScope name) = some v) (scope : Nat) :
    (env.bind (.inScope name) v).localsOf scope = env.localsOf scope := by
  have h0 : (env.localsOf 0).get? name = some v := by
    rw [← lookupIn_nil, ← hi]
    exact hv
  have hs : env.innermostScope = 0 := by simp [innermostScope, hi]
  rw [localsOf_bind, hs]
  split
  · next h => rw [← h, Table.insert_of_get? h0]
  · rfl

/-- The innermost open scope is entered once, so open scopes among which it occurs go on behind it
as the open scopes do, and see the value there that was seen behind it. -/
theorem lookupIn_bind_of_cons {name : String} {scope : Nat} {rest : List Nat}
    (hi : env.inner = scope :: rest) (hν : ν.Admits env.inner)
    (hv : env.lookup (.inScope name) = some v) (other : String) {stack : List Nat}
    (hs : ν.Admits stack) :
    (env.bind (.inScope name) v).lookupIn stack (.inScope other) =
      env.lookupIn stack (.inScope other) := by
  have hscope : env.innermostScope = scope := by simp [innermostScope, hi]
  rw [hi] at hν
  obtain ⟨hpos, hin, -⟩ := hν
  induction stack with
  | nil => simp [localsOf_bind, hscope, Nat.ne_of_gt hpos]
  | cons s stack ih =>
    obtain ⟨-, hsin, hstack⟩ := hs
    rw [lookupIn_cons, lookupIn_cons, ih hstack, localsOf_bind, hscope]
    by_cases h : scope = s
    · subst h
      by_cases hn : name = other
      · subst hn
        -- The scope was entered once, so what lies behind it here is what lies behind it there.
        have hsame : stack = rest := hsin.symm.trans hin
        rw [← lookupIn_inner, hi, lookupIn_cons] at hv
        simp [hsame, hv]
      · simp [hn]
    · simp [h]

/-- **Binding a visible label to the value that it has** changes nothing that open scopes can
see. -/
theorem agrees_bind (hν : ν.Admits env.inner) (hv : env.lookup symbol = some v) :
    Agrees ν (env.bind symbol v) env := by
  cases symbol with
  | global name =>
    have hsame : env.bind (.global name) v = env := by
      simp only [bind, Table.insert_of_get? hv]
    rw [hsame]
    exact .refl ν env
  | inScope name =>
    -- The label may have been visible from further out, so the environment does change, but not in
    -- what a list of open scopes that the nesting admits can see.
    refine ⟨rfl, fun stack hs symbol => ?_⟩
    cases symbol with
    | global other => rfl
    | inScope other =>
      cases hi : env.inner with
      | nil =>
        induction stack with
        | nil => simp [localsOf_bind_of_nil hi hv]
        | cons s stack ih => simp [localsOf_bind_of_nil hi hv, ih hs.2.2]
      | cons scope rest => exact lookupIn_bind_of_cons hi hν hv other hs

end Bind

/-! ## The nesting of a layout -/

section Nesting

variable {env : Environment}

/-- How a statement changes the open scopes: it enters a new one, leaves the innermost one, or does
neither. -/
theorem scopes_follow_cases (env : Environment) (item : Item) :
    ((env.follow item).inner = (env.scopeCount + 1) :: env.inner ∧
        (env.follow item).scopeCount = env.scopeCount + 1) ∨
      (((env.follow item).inner = env.inner ∨ (env.follow item).inner = env.inner.tail) ∧
        (env.follow item).scopeCount = env.scopeCount) := by
  cases item with
  | scopeBegin => exact .inl ⟨rfl, rfl⟩
  | scopeEnd => exact .inr ⟨.inr rfl, rfl⟩
  | byteRange offset length bytes =>
    simp only [follow]
    split <;> exact .inr ⟨.inl rfl, rfl⟩
  | setPc target | advance target fill =>
    simp only [follow]
    split <;> exact .inr ⟨.inl rfl, rfl⟩
  | _ => exact .inr ⟨.inl rfl, rfl⟩

/-- A nesting of the scopes entered so far can be continued over the rest of a layout. -/
theorem exists_nesting_extending (env : Environment) (leaves : List (Nat × Statement))
    (ν₀ : Nesting) (hν : ν₀.Admits env.inner) (hle : ∀ scope ∈ env.inner, scope ≤ env.scopeCount) :
    ∃ ν : Nesting, (∀ scope ≤ env.scopeCount, ν scope = ν₀ scope) ∧
      ∀ x ∈ env.layout leaves, ν.Admits x.1.inner := by
  induction leaves generalizing env ν₀ with
  | nil => exact ⟨ν₀, fun _ _ => rfl, by simp [layout]⟩
  | cons l rest ih =>
    -- It is enough to continue a nesting that agrees with the given one on the scopes entered.
    suffices h : ∃ ν₁ : Nesting, (∀ scope ≤ env.scopeCount, ν₁ scope = ν₀ scope) ∧
        ν₁.Admits (env.follow l.2.item).inner ∧
        (∀ scope ∈ (env.follow l.2.item).inner, scope ≤ (env.follow l.2.item).scopeCount) ∧
        env.scopeCount ≤ (env.follow l.2.item).scopeCount by
      obtain ⟨ν₁, heq₁, hν₁, hle₁, hcount⟩ := h
      obtain ⟨ν, heq, hall⟩ := ih (env.follow l.2.item) ν₁ hν₁ hle₁
      have heq₀ : ∀ scope ≤ env.scopeCount, ν scope = ν₀ scope := fun scope hs =>
        (heq scope (Nat.le_trans hs hcount)).trans (heq₁ scope hs)
      refine ⟨ν, heq₀, fun x hx => ?_⟩
      rcases List.mem_cons.mp hx with rfl | hx
      · exact hν.congr fun scope hs => heq₀ scope (hle scope hs)
      · exact hall x hx
    rcases scopes_follow_cases env l.2.item with ⟨hin, hcount⟩ | ⟨hin, hcount⟩
    -- A new scope has a number of its own, so its place in the nesting is still free.
    · rw [hin, hcount]
      have hnew : ∀ scope ≤ env.scopeCount,
          Function.update ν₀ (env.scopeCount + 1) env.inner scope = ν₀ scope := fun scope hs =>
        Function.update_of_ne (by omega) _ _
      refine ⟨Function.update ν₀ (env.scopeCount + 1) env.inner, hnew, ?_, ?_, by omega⟩
      · exact ⟨by omega, by simp, hν.congr fun scope hs => hnew scope (hle scope hs)⟩
      · intro scope hs
        rcases List.mem_cons.mp hs with rfl | hs
        · exact Nat.le_refl _
        · exact Nat.le_succ_of_le (hle scope hs)
    -- Without a new scope the nesting serves as it is.
    · refine ⟨ν₀, fun _ _ => rfl, ?_, ?_, Nat.le_of_eq hcount.symm⟩
      · rcases hin with hin | hin
        · rwa [hin]
        · rw [hin]
          exact hν.tail
      · intro scope hs
        rw [hcount]
        rcases hin with hin | hin
        · exact hle scope (hin ▸ hs)
        · exact hle scope (List.mem_of_mem_tail (hin ▸ hs))

/-- **A layout from the beginning of a program has a nesting.** -/
theorem exists_nesting (env : Environment) (leaves : List (Nat × Statement)) :
    ∃ ν : Nesting, ∀ x ∈ env.restart.layout leaves, ν.Admits x.1.inner := by
  obtain ⟨ν, -, hν⟩ := exists_nesting_extending env.restart leaves (fun _ => []) trivial
    (by simp [restart])
  exact ⟨ν, hν⟩

end Nesting

end Environment
end Assembler6502
