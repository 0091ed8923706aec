import Assembler6502.Proofs.Tracking
import Assembler6502.Proofs.Validity

/-!
# Open scopes along a program

Which scopes are open at a statement, and which segment it belongs to, depends on the statements
before it alone, and not on the values of labels, nor on what a pass does besides. So all passes
over a program see the statements in the same scopes, and what they can see of the labels there only
grows: labels are bound, and bound again, but never taken back. Faults are never taken back
either.

## Main definitions

* `ScopeState`, `ScopeState.along`: the open scopes, and those in which statements are reached
* `Surroundings`: the open scopes and the segment
* `Environment.Grows`: everything that open scopes see in one environment they see in another one
* `Environment.valuationIn`: what expressions see in given open scopes
* `Fault.Ordinary`: the faults that passes find in statements
* `Context.Adds`, `Context.Reports`: faults are added, and nothing else happens
* `Context.Moves`, `Context.Passes`: what a pass may do to the context at a statement
* `Sweep.Reports`, `Sweep.Passes`: the same, where no numbers are given out

## Main results

* `Context.passes_followStructure`, `Context.passes_follow`: following a statement is passing it
-/

namespace Assembler6502

/-! ## Scopes -/

/-- The scopes that are open at one point of a program. -/
structure ScopeState where
  /-- The open scopes inside the outermost one, the innermost first. -/
  inner : List Nat := []
  /-- The number of scopes entered so far. -/
  count : Nat := 0

namespace ScopeState

/-- What a statement does to the open scopes. -/
def follow (σ : ScopeState) : Item → ScopeState
  | .scopeBegin => ⟨(σ.count + 1) :: σ.inner, σ.count + 1⟩
  | .scopeEnd => { σ with inner := σ.inner.tail }
  | _ => σ

/-- The open scopes in which the statements of a program are reached. -/
def along (leaves : List (Nat × Statement)) : List (ScopeState × Nat × Statement) :=
  reached (fun σ l => σ.follow l.2.item) {} leaves

/-- The open scopes behind some statements. -/
def behind (leaves : List (Nat × Statement)) : ScopeState :=
  leaves.foldl (fun σ l => σ.follow l.2.item) {}

end ScopeState

/-- What surrounds one point of a program: the open scopes, and the segment. -/
structure Surroundings where
  scopes : ScopeState := {}
  segment : String := defaultTextSegment
  /-- Whether the segment takes bytes. -/
  writable : Bool := true

namespace Surroundings

/-- What a statement does to the surroundings. -/
def follow (σ : Surroundings) : Item → Surroundings
  | .textSegment name => { σ with segment := name, writable := true }
  | .dataSegment name => { σ with segment := name, writable := false }
  | item => { σ with scopes := σ.scopes.follow item }

@[simp] theorem scopes_follow (σ : Surroundings) (item : Item) :
    (σ.follow item).scopes = σ.scopes.follow item := by
  cases item <;> rfl

end Surroundings

namespace Environment

variable {env e f g : Environment} {stack : List Nat} {symbol : Symbol}

/-- The scopes that are open in an environment. -/
def scopeState (env : Environment) : ScopeState :=
  ⟨env.inner, env.scopeCount⟩

@[simp] theorem scopeState_restart : env.restart.scopeState = {} := rfl

/-- What surrounds the point of an environment. -/
def surroundings (env : Environment) : Surroundings :=
  ⟨env.scopeState, env.segment, env.writable⟩

@[simp] theorem surroundings_restart : env.restart.surroundings = {} := rfl

@[simp] theorem surroundings_bind (v : Value) :
    (env.bind symbol v).surroundings = env.surroundings := by
  cases symbol <;> rfl

/-! ## Labels that are seen -/

theorem lookupIn_of_restart (h : f.restart = e.restart) (stack : List Nat) (symbol : Symbol) :
    f.lookupIn stack symbol = e.lookupIn stack symbol := by
  simp only [restart, Environment.mk.injEq] at h
  obtain ⟨hg, hl, -⟩ := h
  cases symbol <;> simp [lookupIn, lookup, scopes, localsOf, hg, hl]

@[simp] theorem lookupIn_restart : env.restart.lookupIn stack symbol = env.lookupIn stack symbol :=
  lookupIn_of_restart rfl stack symbol

/-- What open scopes see behind a binding is what they saw before it, or the value that was
bound. -/
theorem lookupIn_bind_cases (env : Environment) (symbol : Symbol) (v : Value) (stack : List Nat)
    (other : Symbol) :
    (env.bind symbol v).lookupIn stack other = env.lookupIn stack other ∨
      (env.bind symbol v).lookupIn stack other = some v := by
  cases symbol with
  | global name =>
    cases other with
    | global name' =>
      simp only [lookupIn_global, bind, Table.get?_insert]
      split <;> simp
    | inScope name' => exact .inl rfl
  | inScope name =>
    cases other with
    | global name' => exact .inl rfl
    | inScope name' =>
      -- The scope in which the label is bound may occur anywhere among the open ones.
      have hlocal (scope : Nat) :
          ((env.bind (.inScope name) v).localsOf scope).get? name' =
              (env.localsOf scope).get? name' ∨
            ((env.bind (.inScope name) v).localsOf scope).get? name' = some v := by
        rw [localsOf_bind]
        split
        · rw [Table.get?_insert]
          split <;> simp
        · exact .inl rfl
      induction stack with
      | nil =>
        rw [lookupIn_nil, lookupIn_nil]
        exact hlocal 0
      | cons scope rest ih =>
        rw [lookupIn_cons, lookupIn_cons]
        rcases hlocal scope with hscope | hscope
        · rw [hscope]
          cases (env.localsOf scope).get? name' with
          | none => simpa using ih
          | some u => exact .inl rfl
        · exact .inr (by rw [hscope]; rfl)

/-- A label that was bound is seen where it was bound. -/
theorem lookup_bind_self (symbol : Symbol) (v : Value) :
    (env.bind symbol v).lookup symbol = some v := by
  cases symbol with
  | global name => simp [lookup, bind]
  | inScope name =>
    have hinner : (env.bind (.inScope name) v).inner = env.inner := rfl
    rw [← lookupIn_inner, hinner]
    cases hi : env.inner with
    | nil => simp [localsOf_bind, innermostScope, hi]
    | cons scope rest => simp [localsOf_bind, innermostScope, hi]

/-- Open scopes see every label in the second environment that they see in the first one. -/
def Grows (e f : Environment) : Prop :=
  ∀ stack symbol, (e.lookupIn stack symbol).isSome → (f.lookupIn stack symbol).isSome

theorem Grows.of_restart (h : f.restart = e.restart) : e.Grows f := by
  intro stack symbol hs
  rwa [lookupIn_of_restart h]

theorem Grows.refl (e : Environment) : e.Grows e := .of_restart rfl

theorem Grows.trans (h : e.Grows f) (h' : f.Grows g) : e.Grows g := fun stack symbol hs =>
  h' stack symbol (h stack symbol hs)

theorem grows_bind (env : Environment) (symbol : Symbol) (v : Value) :
    env.Grows (env.bind symbol v) := by
  intro stack other hs
  rcases env.lookupIn_bind_cases symbol v stack other with h | h
  · rwa [h]
  · rw [h]
    rfl

/-- What expressions see of an environment in given open scopes, at address zero. -/
def valuationIn (env : Environment) (stack : List Nat) : Valuation :=
  ⟨env.lookupIn stack, 0⟩

theorem isValid_valuation (env : Environment) (known : Bool) (x : Expr) :
    x.isValid env.valuation known = x.isValid (env.valuationIn env.scopeState.inner) known := by
  apply Expr.isValid_congr
  intro symbol
  rfl

theorem Grows.isValid (h : e.Grows f) {known : Bool} {x : Expr}
    (hx : x.isValid (e.valuationIn stack) known = true) :
    x.isValid (f.valuationIn stack) known = true :=
  Expr.isValid_mono (fun symbol hs => h stack symbol hs) (fun hk => hk) x hx

end Environment

/-! ## Faults -/

/-- The faults that passes find in statements. -/
def Fault.Ordinary : Fault → Prop
  | .evaluation _ | .symbol _ | .pass (.endlessExtension _) => True
  | .expansion .notDefining | .emission (.unresolvedMode _) => False
  | .expansion _ | .emission _ => True
  | .parse _ | .pass _ => False

namespace Context

variable {P Q : Fault → Prop} {binds : Prop} {item : Item} {st : Statement} {c d b : Context}
  {location : Location} {x : Expr}

/-- The faults that are found at an item: that one of its expressions has no value, and others
among `F`. -/
def Finds (F : Fault → Prop) (c : Context) (item : Item) : Fault → Prop
  | .evaluation err => ∃ e ∈ item.expressions, c.evaluate e = .error err
  | fault => F fault

theorem Finds.mono {F G : Fault → Prop} (hFG : ∀ fault, F fault → G fault) {fault : Fault}
    (h : c.Finds F item fault) : c.Finds G item fault := by
  cases fault with
  | evaluation err => exact h
  | _ => exact hFG _ h

theorem Finds.ordinary {fault : Fault} (h : c.Finds Fault.Ordinary item fault) :
    fault.Ordinary := by
  cases fault with
  | evaluation err => trivial
  | _ => exact h

/-- The faults of the first context come first in the second one, and those behind them are among
`P`. -/
def Adds (P : Fault → Prop) (c d : Context) : Prop :=
  ∃ added, d.diagnostics.errors = c.diagnostics.errors ++ added ∧
    ∀ fault ∈ added, P fault.value

namespace Adds

theorem refl (P : Fault → Prop) (c : Context) : Adds P c c :=
  ⟨[], by simp, by simp⟩

theorem mono (h : Adds P c d) (hPQ : ∀ fault, P fault → Q fault) : Adds Q c d := by
  obtain ⟨added, hadded, hP⟩ := h
  exact ⟨added, hadded, fun fault hfault => hPQ _ (hP fault hfault)⟩

theorem trans (h : Adds P c d) (h' : Adds P d b) : Adds P c b := by
  obtain ⟨added, hadded, hP⟩ := h
  obtain ⟨added', hadded', hP'⟩ := h'
  refine ⟨added ++ added', by rw [hadded', hadded, List.append_assoc], ?_⟩
  intro fault hfault
  rcases List.mem_append.mp hfault with hfault | hfault
  · exact hP fault hfault
  · exact hP' fault hfault

theorem error {fault : Fault} (h : P fault) : Adds P c (c.error location fault) := by
  refine ⟨[⟨location, fault⟩], rfl, fun f hf => ?_⟩
  rwa [List.mem_singleton.mp hf]

theorem restart (h : ∀ e, P (.symbol e)) (c : Context) : Adds P c c.restart := by
  unfold Context.restart
  dsimp only
  split
  · exact .refl P c
  · exact error (c := c.mapEnv Environment.restart) (h _)

end Adds

/-- Faults are added and nothing else happens to what a pass sees. -/
structure Reports (P : Fault → Prop) (c d : Context) : Prop where
  cpu : d.cpu = c.cpu
  env : d.env = c.env
  faults : Adds P c d

namespace Reports

theorem refl (P : Fault → Prop) (c : Context) : Reports P c c :=
  ⟨rfl, rfl, .refl P c⟩

theorem trans (h : Reports P c d) (h' : Reports P d b) : Reports P c b :=
  ⟨h'.cpu.trans h.cpu, h'.env.trans h.env, h.faults.trans h'.faults⟩

theorem evaluate_eq (h : Reports P c d) (x : Expr) : d.evaluate x = c.evaluate x := by
  rw [evaluate, evaluate, h.env]

theorem warn (P : Fault → Prop) (c : Context) (location : Location) (warning : Warning) :
    Reports P c (c.warn location warning) :=
  ⟨rfl, rfl, .refl P c⟩

theorem error {fault : Fault} (h : P fault) : Reports P c (c.error location fault) :=
  ⟨rfl, rfl, .error h⟩

theorem valueOf (h : ∀ err, c.evaluate x = .error err → P (.evaluation err)) :
    Reports P c (c.valueOf location x).2 := by
  cases hv : c.evaluate x with
  | ok v =>
    rw [valueOf_of_evaluate hv]
    exact .refl P c
  | error err =>
    have hvo : (c.valueOf location x).2 = c.error location (.evaluation err) := by
      simp [Context.valueOf, hv]
    rw [hvo]
    exact error (h err hv)

end Reports

/-! ## Passing a statement -/

/-- What a pass may do to the context at a statement: it adds faults among `P`, and leaves the
labels alone or binds the one that the statement defines, if it binds labels at all. -/
structure Moves (binds : Prop) (P : Fault → Prop) (item : Item) (c d : Context) : Prop where
  cpu : d.cpu = c.cpu
  labels : d.env.restart = c.env.restart ∨
    binds ∧ ∃ symbol value v, item = .label symbol value ∧ d.env = c.env.bind symbol v
  faults : Adds P c d

/-- The same, where it also follows scopes and segments. -/
structure Passes (binds : Prop) (P : Fault → Prop) (item : Item) (c d : Context) : Prop
    extends Moves binds P item c d where
  surroundings : d.env.surroundings = c.env.surroundings.follow item

namespace Moves

theorem grows (h : Moves binds P item c d) : c.env.Grows d.env := by
  rcases h.labels with hlabels | ⟨-, symbol, value, v, -, henv⟩
  · exact .of_restart hlabels
  · rw [henv]
    exact Environment.grows_bind _ symbol v

theorem restart (h : Moves False P item c d) : d.env.restart = c.env.restart :=
  h.labels.resolve_right fun hbinds => hbinds.1

theorem mono {other : Prop} (h : Moves binds P item c d) (hbinds : binds → other)
    (hPQ : ∀ fault, P fault → Q fault) : Moves other Q item c d :=
  ⟨h.cpu, h.labels.imp id (And.imp_left hbinds), h.faults.mono hPQ⟩

end Moves

theorem Reports.moves (h : Reports P c d) : Moves binds P item c d :=
  ⟨h.cpu, .inl (by rw [h.env]), h.faults⟩

theorem Passes.mono {other : Prop} (h : Passes binds P item c d) (hbinds : binds → other)
    (hPQ : ∀ fault, P fault → Q fault) : Passes other Q item c d :=
  ⟨h.toMoves.mono hbinds hPQ, h.surroundings⟩

theorem Passes.scopes (h : Passes binds P item c d) :
    d.env.scopeState = c.env.scopeState.follow item := by
  have hscopes := congrArg Surroundings.scopes h.surroundings
  rwa [Surroundings.scopes_follow] at hscopes

/-- A statement that leaves the surroundings alone is passed by adding faults and doing something
else to the environment that leaves the surroundings and the labels alone. -/
theorem Reports.passes {f : Environment → Environment} (h : Reports P c d)
    (hitem : ∀ σ : Surroundings, σ.follow item = σ)
    (hs : ∀ env, (f env).surroundings = env.surroundings)
    (hl : ∀ env, (f env).restart = env.restart) :
    Passes binds P item c (d.mapEnv f) := by
  refine ⟨⟨h.cpu, .inl ?_, h.faults⟩, ?_⟩
  · rw [env_mapEnv, hl, h.env]
  · rw [env_mapEnv, hs, h.env, hitem]

theorem Reports.passes_self (h : Reports P c d) (hitem : ∀ σ : Surroundings, σ.follow item = σ) :
    Passes binds P item c d :=
  h.passes (f := id) hitem (fun _ => rfl) fun _ => rfl

theorem Reports.passes_setPc (h : Reports P c d) (hitem : ∀ σ : Surroundings, σ.follow item = σ)
    (pc : Value) : Passes binds P item c (d.mapEnv (·.setPc pc)) :=
  h.passes hitem (fun _ => rfl) fun _ => rfl

theorem Reports.passes_advancePc (h : Reports P c d)
    (hitem : ∀ σ : Surroundings, σ.follow item = σ) (n : Value) :
    Passes binds P item c (d.mapEnv (·.advancePc n)) :=
  h.passes hitem (fun _ => rfl) fun _ => rfl

theorem Reports.passes_bind (h : Reports P c d) (symbol : Symbol) (value : Expr) (v : Value) :
    Passes True P (.label symbol value) c (d.mapEnv (·.bind symbol v)) := by
  refine ⟨⟨h.cpu, .inr ⟨trivial, symbol, value, v, rfl, ?_⟩, h.faults⟩, ?_⟩
  · rw [env_mapEnv, h.env]
  · rw [env_mapEnv, Environment.surroundings_bind, h.env]
    rfl

theorem Passes.trans {item' : Item} (h : Passes False P item c d)
    (hitem : ∀ σ : Surroundings, σ.follow item = σ) (h' : Passes False P item' d b) :
    Passes False P item' c b :=
  ⟨⟨h'.cpu.trans h.cpu, .inl (h'.restart.trans h.restart), h.faults.trans h'.faults⟩,
    by rw [h'.surroundings, h.surroundings, hitem]⟩

theorem Reports.trans_passes (h : Reports P c d) (h' : Passes binds P item d b) :
    Passes binds P item c b :=
  ⟨⟨h'.cpu.trans h.cpu, h.env ▸ h'.labels, h.faults.trans h'.faults⟩,
    by rw [h'.surroundings, h.env]⟩

theorem Passes.trans_reports (h : Passes binds P item c d) (h' : Reports P d b) :
    Passes binds P item c b :=
  ⟨⟨h'.cpu.trans h.cpu, h'.env ▸ h.labels, h.faults.trans h'.faults⟩,
    by rw [h'.env, h.surroundings]⟩

theorem passes_followStructure (h : P (.symbol .unmatchedScopeEnd)) (c : Context)
    (st : Statement) : Passes binds P st.item c (c.followStructure st) := by
  have hlabels := restart_followStructure c st
  obtain ⟨location, item⟩ := st
  cases item with
  | scopeEnd =>
    simp only [followStructure, followStructure?] at hlabels ⊢
    cases hi : c.env.inner with
    | nil =>
      -- A scope that is not open cannot be closed; that is a fault and changes nothing.
      have hexit : c.env.exitScope? = .error .unmatchedScopeEnd := by
        simp [Environment.exitScope?, hi]
      rw [hexit] at hlabels ⊢
      refine ⟨⟨rfl, .inl hlabels, .error h⟩, ?_⟩
      simp [Context.error, Environment.surroundings, Surroundings.follow, Environment.scopeState,
        ScopeState.follow, hi]
    | cons scope rest =>
      have hexit : c.env.exitScope? = .ok { c.env with inner := rest } := by
        simp [Environment.exitScope?, hi]
      rw [hexit] at hlabels ⊢
      refine ⟨⟨rfl, .inl hlabels, .refl P c⟩, ?_⟩
      simp [Environment.surroundings, Surroundings.follow, Environment.scopeState,
        ScopeState.follow, hi]
  | _ => exact ⟨⟨rfl, .inl hlabels, .refl P c⟩, rfl⟩

/-- **Following a statement** is passing it, if the expressions that are missed are allowed to be
missed. -/
theorem passes_follow (hs : P (.symbol .unmatchedScopeEnd))
    (h : ∀ e ∈ st.item.expressions, ∀ err, c.evaluate e = .error err → P (.evaluation err)) :
    Passes binds P st.item c (c.follow st) := by
  obtain ⟨location, item⟩ := st
  cases item with
  | instruction i | data width endian values =>
    exact (Reports.refl P c).passes_advancePc (fun _ => rfl) _
  | byteRange offset length bytes =>
    simp only [follow, trackPc?]
    cases c.evaluate length with
    | ok n => exact (Reports.refl P c).passes_advancePc (fun _ => rfl) n
    | error err => exact (Reports.refl P c).passes_self fun _ => rfl
  | setPc target | advance target fill =>
    have hvalue : Reports P c (c.valueOf location target).2 :=
      .valueOf (h target List.mem_cons_self)
    exact hvalue.passes_setPc (fun _ => rfl) _
  | checkPc target | label symbol value => exact (Reports.refl P c).passes_self fun _ => rfl
  | _ => exact passes_followStructure hs c _

end Context

namespace Sweep

variable {μ : Type} {P : Fault → Prop} {binds : Prop} {item : Item} {s t u : Sweep μ}
  {location : Location} {x : Expr}

/-- Faults are added and nothing else happens to what a pass sees, and no numbers are given out. -/
structure Reports (P : Fault → Prop) (s t : Sweep μ) : Prop
    extends Context.Reports P s.context t.context where
  size : t.size = s.size

/-- A statement is passed, and no numbers are given out. -/
structure Passes (binds : Prop) (P : Fault → Prop) (item : Item) (s t : Sweep μ) : Prop
    extends Context.Passes binds P item s.context t.context where
  size : t.size = s.size

namespace Reports

theorem refl (P : Fault → Prop) (s : Sweep μ) : Reports P s s :=
  ⟨.refl P _, rfl⟩

theorem trans (h : Reports P s t) (h' : Reports P t u) : Reports P s u :=
  ⟨h.toReports.trans h'.toReports, h'.size.trans h.size⟩

theorem error {fault : Fault} (h : P fault) : Reports P s (s.error location fault) :=
  ⟨.error h, rfl⟩

theorem valueOf (h : ∀ err, s.context.evaluate x = .error err → P (.evaluation err)) :
    Reports P s (s.valueOf location x).2 :=
  ⟨.valueOf h, rfl⟩

theorem passes_self (h : Reports P s t) (hitem : ∀ σ : Surroundings, σ.follow item = σ) :
    Passes binds P item s t :=
  ⟨h.toReports.passes_self hitem, h.size⟩

end Reports
end Sweep
end Assembler6502
