import Assembler6502.Proofs.Walk

/-!
# Layouts

What a walk does to addresses, scopes and segments depends on the values of labels, but leaves them
alone, and is a function of the environment. The layout of a program is the list of the
environments in which its statements are reached that way. The passes that track addresses all see
the layout; what they add to it is faults, and a fault is never taken back.

## Main definitions

* `Environment.follow`: what a statement does to addresses, scopes and segments
* `Environment.Followable`: following the statement is no fault
* `Environment.layout`: the environments in which the statements of a program are reached
* `Sweep.Quiet`: a pass has found no fault and changed nothing so far

## Main results

* `Context.follow_eq`: a context follows a statement without a fault as its environment does
-/

namespace Assembler6502

/-! ## Faults -/

namespace Context

variable {c : Context} {location : Location} {e : Expr}

theorem hasErrors_eq_false : c.hasErrors = false ↔ c.diagnostics.errors = [] := by
  simp [hasErrors, Diagnostics.hasErrors]

@[simp] theorem hasErrors_error (fault : Fault) : (c.error location fault).hasErrors = true := by
  simp [error, hasErrors, Diagnostics.error, Diagnostics.hasErrors]

@[simp] theorem hasErrors_warn (warning : Warning) :
    (c.warn location warning).hasErrors = c.hasErrors := rfl

@[simp] theorem hasErrors_mapEnv (f : Environment → Environment) :
    (c.mapEnv f).hasErrors = c.hasErrors := rfl

@[simp] theorem env_mapEnv (f : Environment → Environment) : (c.mapEnv f).env = f c.env := rfl

theorem valueOf_of_evaluate {v : Value} (h : c.evaluate e = .ok v) :
    c.valueOf location e = (v, c) := by
  simp [valueOf, h]

theorem evaluate_of_valueOf (h : (c.valueOf location e).2.hasErrors = false) :
    c.hasErrors = false ∧ ∃ v, c.evaluate e = .ok v := by
  cases hv : c.evaluate e with
  | ok v => exact ⟨by simpa [valueOf, hv] using h, v, rfl⟩
  | error err => simp [valueOf, hv] at h

theorem hasErrors_restart :
    c.restart.hasErrors = false ↔ c.hasErrors = false ∧ c.env.inner = [] := by
  cases hi : c.env.inner <;> simp [restart, Environment.unclosed?, hi]

theorem restart_eq (h : c.env.inner = []) : c.restart = c.mapEnv Environment.restart := by
  simp [restart, Environment.unclosed?, h]

@[simp] theorem env_restart : c.restart.env = c.env.restart := by
  cases hi : c.env.inner <;> simp [restart, Environment.unclosed?, hi, error]

theorem cpu_restart (c : Context) : c.restart.cpu = c.cpu := by
  cases hi : c.env.inner <;> simp [restart, Environment.unclosed?, hi, error, mapEnv]

end Context

/-! ## Following a statement -/

namespace Environment

@[simp] theorem restart_restart (env : Environment) : env.restart.restart = env.restart := rfl

/-- What a statement does to addresses, scopes and segments. An address that has no value counts as
zero, and a length without a value is not there. -/
def follow (env : Environment) : Item → Environment
  | .instruction i => env.advancePc (Int64.ofNat i.size)
  | .data width _ values => env.advancePc (Int64.ofNat (width.bytes * values.length))
  | .byteRange _ length _ =>
    match length.evaluate env.valuation with
    | .ok n => env.advancePc n
    | .error _ => env
  | .setPc target | .advance target _ =>
    match target.evaluate env.valuation with
    | .ok v => env.setPc v
    | .error _ => env.setPc 0
  | .textSegment name => env.switchSegment name true
  | .dataSegment name => env.switchSegment name false
  | .scopeBegin => env.enterScope
  | .scopeEnd => { env with inner := env.inner.tail }
  | _ => env

/-- Following the statement is no fault: addresses have values, and a scope is open where one is
closed. -/
def Followable (env : Environment) : Item → Prop
  | .setPc target | .advance target _ => ∃ v, target.evaluate env.valuation = .ok v
  | .scopeEnd => env.inner ≠ []
  | _ => True

/-- The environments in which the statements of a program are reached. -/
def layout (env : Environment) (leaves : List (Nat × Statement)) :
    List (Environment × Nat × Statement) :=
  reached (fun env l => env.follow l.2.item) env leaves

/-- The environment behind the last statement of a program. -/
def layoutEnd (env : Environment) (leaves : List (Nat × Statement)) : Environment :=
  leaves.foldl (fun env l => env.follow l.2.item) env

variable {env : Environment}

theorem follow_byteRange {offset length : Expr} {bytes : List UInt8} {n : Value}
    (h : length.evaluate env.valuation = .ok n) :
    env.follow (.byteRange offset length bytes) = env.advancePc n := by
  simp [follow, h]

theorem follow_setPc {target : Expr} {v : Value} (h : target.evaluate env.valuation = .ok v) :
    env.follow (.setPc target) = env.setPc v := by
  simp [follow, h]

theorem follow_advance {target fill : Expr} {v : Value}
    (h : target.evaluate env.valuation = .ok v) :
    env.follow (.advance target fill) = env.setPc v := by
  simp [follow, h]

@[simp] theorem globals_follow (item : Item) : (env.follow item).globals = env.globals := by
  cases item <;> simp only [follow] <;> (try split) <;> rfl

@[simp] theorem locals_follow (item : Item) : (env.follow item).locals = env.locals := by
  cases item <;> simp only [follow] <;> (try split) <;> rfl

theorem restart_follow (item : Item) : (env.follow item).restart = env.restart := by
  simp [restart]

theorem restart_layoutEnd (leaves : List (Nat × Statement)) :
    (env.layoutEnd leaves).restart = env.restart := by
  induction leaves generalizing env with
  | nil => rfl
  | cons l rest ih => exact ih.trans (restart_follow l.2.item)

theorem restart_of_mem_layout {leaves : List (Nat × Statement)} {x : Environment × Nat × Statement}
    (hx : x ∈ env.layout leaves) : x.1.restart = env.restart :=
  (foldl_invariant (P := fun f : Environment => f.restart = env.restart) rfl
    fun y _ hy => (restart_follow y.2.2.item).trans hy).2 x hx

end Environment

namespace Context

variable {c : Context} {st : Statement}

/-- Without a fault, a context follows a statement as its environment does. -/
theorem follow_eq (h : c.env.Followable st.item) :
    c.follow st = c.mapEnv (·.follow st.item) := by
  obtain ⟨location, item⟩ := st
  cases item with
  | byteRange offset length bytes =>
    -- A length without a value is no fault here; it is one when the bytes are written.
    cases hv : length.evaluate c.env.valuation <;>
      simp [follow, trackPc?, evaluate, hv, mapEnv, Environment.follow]
  | setPc target | advance target fill =>
    obtain ⟨v, hv⟩ := h
    simp [follow, trackPc?, valueOf, evaluate, hv, mapEnv, Environment.follow]
  | scopeEnd =>
    cases hi : c.env.inner with
    | nil => exact absurd hi h
    | cons scope rest =>
      simp [follow, trackPc?, followStructure, followStructure?, Environment.exitScope?, hi, mapEnv,
        Environment.follow]
  | _ => rfl

/-- If following a statement finds no fault, then there was none, and none to find. -/
theorem followable_of_follow (h : (c.follow st).hasErrors = false) :
    c.hasErrors = false ∧ c.env.Followable st.item := by
  obtain ⟨location, item⟩ := st
  cases item with
  | byteRange offset length bytes =>
    cases hv : length.evaluate c.env.valuation <;>
      simp_all [follow, trackPc?, evaluate, Environment.Followable]
  | setPc target | advance target fill =>
    simp only [follow, trackPc?, hasErrors_mapEnv] at h
    exact evaluate_of_valueOf h
  | scopeEnd =>
    cases hi : c.env.inner <;>
      simp_all [follow, trackPc?, followStructure, followStructure?, Environment.exitScope?,
        Environment.Followable]
    exact h
  | _ => exact ⟨h, trivial⟩

end Context

namespace Sweep

variable {μ : Type} {s : Sweep μ} {location : Location} {e : Expr} {st : Statement}

@[simp] theorem context_mapContext (f : Context → Context) :
    (s.mapContext f).context = f s.context := rfl

@[simp] theorem changed_mapContext (f : Context → Context) :
    (s.mapContext f).changed = s.changed := rfl

@[simp] theorem context_setChanged : s.setChanged.context = s.context := rfl

@[simp] theorem changed_setChanged : s.setChanged.changed = true := rfl

@[simp] theorem context_mapEnv (f : Environment → Environment) :
    (s.mapEnv f).context = s.context.mapEnv f := rfl

@[simp] theorem changed_mapEnv (f : Environment → Environment) :
    (s.mapEnv f).changed = s.changed := rfl

@[simp] theorem context_error (fault : Fault) :
    (s.error location fault).context = s.context.error location fault := rfl

@[simp] theorem context_warn (warning : Warning) :
    (s.warn location warning).context = s.context.warn location warning := rfl

@[simp] theorem context_valueOf :
    (s.valueOf location e).2.context = (s.context.valueOf location e).2 := rfl

@[simp] theorem size_mapContext (f : Context → Context) : (s.mapContext f).size = s.size := rfl

@[simp] theorem size_mapEnv (f : Environment → Environment) : (s.mapEnv f).size = s.size := rfl

@[simp] theorem size_error (fault : Fault) : (s.error location fault).size = s.size := rfl

@[simp] theorem size_valueOf : (s.valueOf location e).2.size = s.size := rfl

@[simp] theorem size_warn (warning : Warning) : (s.warn location warning).size = s.size := rfl

@[simp] theorem size_setChanged : s.setChanged.size = s.size := rfl

@[simp] theorem changed_valueOf : (s.valueOf location e).2.changed = s.changed := rfl

theorem valueOf_of_evaluate {v : Value} (h : s.context.evaluate e = .ok v) :
    s.valueOf location e = (v, s) := by
  simp [valueOf, Context.valueOf_of_evaluate h]

theorem evaluate_of_valueOf (h : (s.valueOf location e).2.context.hasErrors = false) :
    s.context.hasErrors = false ∧
      ∃ v, s.context.evaluate e = .ok v ∧ s.valueOf location e = (v, s) := by
  obtain ⟨hs, v, hv⟩ := Context.evaluate_of_valueOf h
  exact ⟨hs, v, hv, valueOf_of_evaluate hv⟩

/-- No fault was found and nothing was changed so far. -/
structure Quiet (s : Sweep μ) : Prop where
  clean : s.context.hasErrors = false
  unchanged : s.changed = false

theorem follow_eq (h : s.context.env.Followable st.item) :
    s.mapContext (·.follow st) = s.mapEnv (·.follow st.item) := by
  simp [mapEnv, mapContext, Context.follow_eq h]

end Sweep
end Assembler6502
