import Assembler6502.Expr.Evaluation

/-!
# What occurs in an expression

The value of an expression depends on what occurs in it: on the labels, and on the program counter
if it occurs. Validity says of these whether they are known, and a hardcoded expression is one in
which neither occurs. That the flag stored with an expression tells the hardcoded ones, and that
validity may stop where it is set, is part of what is proved.

## Main definitions

* `Expr.Occurs`: an expression is a part of another one

## Main results

* `Expr.induction`: induction on expressions
* `Expr.isValid_iff`: validity is about the labels and the program counter that occur
* `Expr.isHardcoded_iff`: neither labels nor the program counter occur
* `Expr.evaluate_congr`: the value depends on what occurs
-/

namespace Assembler6502
namespace Expr

/-- Induction on expressions, with a hypothesis for each operand of a chain. -/
@[elab_as_elim]
theorem induction {P : Expr → Prop} (constant : ∀ v, P (constant v)) (symbol : ∀ s, P (symbol s))
    (programCounter : P programCounter) (highByte : ∀ e, P e → P (highByte e))
    (lowByte : ∀ e, P e → P (lowByte e))
    (chain : ∀ first rest, P first → (∀ x ∈ rest, P x.2) → P (chain first rest)) (e : Expr) : P e :=
  @Expr.rec P (fun rest => ∀ x ∈ rest, P x.2) (fun x => P x.2) constant symbol programCounter
    highByte lowByte chain (List.forall_mem_nil _)
    (fun _ _ hx hrest => List.forall_mem_cons.mpr ⟨hx, hrest⟩) (fun _ _ he => he) e

/-- An expression is a part of another one. -/
inductive Occurs (x : Expr) : Expr → Prop
  | self : Occurs x x
  | highByte {e : Expr} : Occurs x e → Occurs x (highByte e)
  | lowByte {e : Expr} : Occurs x e → Occurs x (lowByte e)
  | first {first : Expr} {rest : List (Operator × Expr)} :
    Occurs x first → Occurs x (chain first rest)
  | operand {first : Expr} {rest : List (Operator × Expr)} {y : Operator × Expr} :
    y ∈ rest → Occurs x y.2 → Occurs x (chain first rest)

variable {ν ν' : Valuation} {known : Bool} {x e first : Expr} {rest : List (Operator × Expr)}
  {v : Value}

section Occurs

@[simp] theorem occurs_constant : x.Occurs (constant v) ↔ x = constant v := by
  constructor
  · rintro ⟨⟩
    rfl
  · rintro rfl
    exact .self

@[simp] theorem occurs_symbol {s : Symbol} : x.Occurs (symbol s) ↔ x = symbol s := by
  constructor
  · rintro ⟨⟩
    rfl
  · rintro rfl
    exact .self

@[simp] theorem occurs_programCounter : x.Occurs programCounter ↔ x = programCounter := by
  constructor
  · rintro ⟨⟩
    rfl
  · rintro rfl
    exact .self

@[simp] theorem occurs_highByte : x.Occurs (highByte e) ↔ x = highByte e ∨ x.Occurs e := by
  constructor
  · rintro (_ | h)
    · exact .inl rfl
    · exact .inr h
  · rintro (rfl | h)
    · exact .self
    · exact .highByte h

@[simp] theorem occurs_lowByte : x.Occurs (lowByte e) ↔ x = lowByte e ∨ x.Occurs e := by
  constructor
  · rintro (_ | _ | h)
    · exact .inl rfl
    · exact .inr h
  · rintro (rfl | h)
    · exact .self
    · exact .lowByte h

@[simp] theorem occurs_chain :
    x.Occurs (chain first rest) ↔
      x = chain first rest ∨ x.Occurs first ∨ ∃ y ∈ rest, x.Occurs y.2 := by
  constructor
  · intro h
    cases h with
    | self => exact .inl rfl
    | first h => exact .inr (.inl h)
    | operand hy h => exact .inr (.inr ⟨_, hy, h⟩)
  · rintro (rfl | h | ⟨y, hy, h⟩)
    · exact .self
    · exact .first h
    · exact .operand hy h

end Occurs

/-! ## What the flag spares

The flag of an expression is worked out from those of its operands, and validity does not look into
an expression whose flag is set. Both have the equations of functions that go over the whole
expression. -/

section Stored

theorem storedRest_eq (rest : List (Operator × Expr)) :
    storedRest rest = rest.map fun x => (x.1, x.2.stored) := by
  induction rest with
  | nil => rfl
  | cons x rest ih => rw [storedRest, ih, List.map_cons]

@[simp] theorem isHardcoded_constant : (constant v).isHardcoded = true := rfl

@[simp] theorem isHardcoded_symbol {s : Symbol} : (symbol s).isHardcoded = false := rfl

@[simp] theorem isHardcoded_programCounter : programCounter.isHardcoded = false := rfl

@[simp] theorem isHardcoded_highByte : (highByte e).isHardcoded = e.isHardcoded := by
  rw [isHardcoded, stored, Stored.make, Stored.hardcoded, Stored.Kind.flag, isHardcoded]

@[simp] theorem isHardcoded_lowByte : (lowByte e).isHardcoded = e.isHardcoded := by
  rw [isHardcoded, stored, Stored.make, Stored.hardcoded, Stored.Kind.flag, isHardcoded]

@[simp] theorem isHardcoded_chain : (chain first rest).isHardcoded =
    (first.isHardcoded && rest.all fun x => x.2.isHardcoded) := by
  rw [isHardcoded, stored, Stored.make, Stored.hardcoded, Stored.Kind.flag, storedRest_eq,
    List.all_map]
  rfl

theorem Stored.allValid_eq (rest : List (Operator × Stored)) :
    Stored.allValid ν known rest = rest.all fun x => x.2.isValid ν known := by
  induction rest with
  | nil => rw [Stored.allValid, List.all_nil]
  | cons x rest ih => rw [Stored.allValid, ih, List.all_cons]

/-- **What is hardcoded is valid**, whatever is known. -/
theorem isValid_of_isHardcoded (e : Expr) (h : e.isHardcoded = true) :
    e.isValid ν known = true := by
  rw [isHardcoded] at h
  rw [isValid]
  revert h
  obtain ⟨kind, hardcoded⟩ := e.stored
  intro h
  rw [Stored.isValid, if_pos (by exact h)]

/-- An expression is valid if its flag is set or its parts are valid. -/
theorem Stored.isValid_make (kind : Stored.Kind) :
    (Stored.make kind).isValid ν known = (kind.flag || Stored.validKind ν known kind) := by
  rw [Stored.make, Stored.isValid]
  cases kind.flag <;> rfl

/-- A flag that is set only where something valid is makes no difference to it. -/
theorem or_eq_of_imp {flag valid : Bool} (h : flag = true → valid = true) :
    (flag || valid) = valid := by
  cases flag with
  | false => rfl
  | true => rw [h rfl, Bool.or_true]

@[simp] theorem isValid_constant : (constant v).isValid ν known = true := rfl

@[simp] theorem isValid_symbol {s : Symbol} :
    (symbol s).isValid ν known = (ν.lookup s).isSome := by
  rw [isValid, stored, Stored.isValid_make, Stored.validKind]
  rfl

@[simp] theorem isValid_programCounter : programCounter.isValid ν known = known := by
  rw [isValid, stored, Stored.isValid_make, Stored.validKind]
  rfl

@[simp] theorem isValid_highByte : (highByte e).isValid ν known = e.isValid ν known := by
  rw [isValid, stored, Stored.isValid_make, Stored.validKind]
  exact or_eq_of_imp (isValid_of_isHardcoded e)

@[simp] theorem isValid_lowByte : (lowByte e).isValid ν known = e.isValid ν known := by
  rw [isValid, stored, Stored.isValid_make, Stored.validKind]
  exact or_eq_of_imp (isValid_of_isHardcoded e)

@[simp] theorem isValid_chain : (chain first rest).isValid ν known =
    (first.isValid ν known && rest.all fun x => x.2.isValid ν known) := by
  have hrest : Stored.allValid ν known (storedRest rest) =
      rest.all fun x => x.2.isValid ν known := by
    rw [Stored.allValid_eq, storedRest_eq, List.all_map]
    rfl
  rw [isValid, stored, Stored.isValid_make, Stored.validKind, hrest]
  -- The flag of a chain is set if those of all its operands are.
  refine or_eq_of_imp fun hflag => ?_
  have hhard : (chain first rest).isHardcoded = true := hflag
  rw [isHardcoded_chain, Bool.and_eq_true, List.all_eq_true] at hhard
  rw [Bool.and_eq_true, List.all_eq_true]
  exact ⟨isValid_of_isHardcoded first hhard.1,
    fun x hx => isValid_of_isHardcoded x.2 (hhard.2 x hx)⟩

end Stored

/-! ## Labels and the program counter -/

/-- **Validity** is about what occurs: the labels have values, and the program counter is known if
it is used. -/
theorem isValid_iff : e.isValid ν known = true ↔
    (∀ s, (symbol s).Occurs e → (ν.lookup s).isSome) ∧
      (programCounter.Occurs e → known = true) := by
  induction e using Expr.induction with
  | constant v => simp
  | symbol t => simp
  | programCounter => simp
  | highByte e ih | lowByte e ih => simp [ih]
  | chain first rest hfirst hrest =>
    rw [isValid_chain, Bool.and_eq_true, hfirst, List.all_eq_true, forall₂_congr hrest]
    -- What occurs in a chain occurs in its first operand or in another one.
    constructor
    · rintro ⟨⟨hsymbols, hpc⟩, hoperands⟩
      constructor
      · intro s hs
        rcases occurs_chain.mp hs with hs | hs | ⟨y, hy, hs⟩
        · cases hs
        · exact hsymbols s hs
        · exact (hoperands y hy).1 s hs
      · intro hs
        rcases occurs_chain.mp hs with hs | hs | ⟨y, hy, hs⟩
        · cases hs
        · exact hpc hs
        · exact (hoperands y hy).2 hs
    · rintro ⟨hsymbols, hpc⟩
      refine ⟨⟨fun s hs => hsymbols s (.first hs), fun hs => hpc (.first hs)⟩, fun y hy => ?_⟩
      exact ⟨fun s hs => hsymbols s (.operand hy hs), fun hs => hpc (.operand hy hs)⟩

theorem isHardcoded_iff_isValid :
    e.isHardcoded = true ↔ e.isValid ⟨fun _ => none, 0⟩ false = true := by
  induction e using Expr.induction with
  | constant v | symbol s | programCounter => simp
  | highByte e ih | lowByte e ih => simp [ih]
  | chain first rest hfirst hrest =>
    rw [isHardcoded_chain, isValid_chain, Bool.and_eq_true, Bool.and_eq_true, hfirst,
      List.all_eq_true, List.all_eq_true, forall₂_congr hrest]

/-- **A hardcoded expression** is one in which neither labels nor the program counter occur. -/
theorem isHardcoded_iff : e.isHardcoded = true ↔
    (∀ s, ¬ (symbol s).Occurs e) ∧ ¬ programCounter.Occurs e := by
  rw [isHardcoded_iff_isValid, isValid_iff]
  -- No label has a value there, so none occurs.
  simp

/-! ## Values -/

theorem evaluateRest_congr (h : ∀ y ∈ rest, y.2.evaluate ν = y.2.evaluate ν') (v : Value) :
    evaluateRest ν v rest = evaluateRest ν' v rest := by
  induction rest generalizing v with
  | nil => rw [evaluateRest, evaluateRest]
  | cons y rest ih =>
    obtain ⟨hy, hrest⟩ := List.forall_mem_cons.mp h
    rw [evaluateRest, evaluateRest, hy]
    simp only [ih hrest]

/-- **The value of an expression** depends on the labels and the program counter that occur. -/
theorem evaluate_congr (hsymbols : ∀ s, (symbol s).Occurs e → ν.lookup s = ν'.lookup s)
    (hpc : programCounter.Occurs e → ν.pc = ν'.pc) : e.evaluate ν = e.evaluate ν' := by
  induction e using Expr.induction with
  | constant v => rw [evaluate, evaluate]
  | symbol s => rw [evaluate, evaluate, hsymbols s .self]
  | programCounter => rw [evaluate, evaluate, hpc .self]
  | highByte e ih =>
    rw [evaluate, evaluate, ih (fun s hs => hsymbols s (.highByte hs)) fun hs => hpc (.highByte hs)]
  | lowByte e ih =>
    rw [evaluate, evaluate, ih (fun s hs => hsymbols s (.lowByte hs)) fun hs => hpc (.lowByte hs)]
  | chain first rest hfirst hrest =>
    rw [evaluate, evaluate, hfirst (fun s hs => hsymbols s (.first hs)) fun hs => hpc (.first hs)]
    have hoperands : ∀ y ∈ rest, y.2.evaluate ν = y.2.evaluate ν' := fun y hy =>
      hrest y hy (fun s hs => hsymbols s (.operand hy hs)) fun hs => hpc (.operand hy hs)
    simp only [evaluateRest_congr hoperands]

end Expr
end Assembler6502
