import Assembler6502.Proofs.Computations
import Assembler6502.Proofs.Occurrence

/-!
# Validity of expressions

An expression is valid if every label that it mentions has a value. That is all that can go wrong
with labels: a valid expression has a value or divides by zero, and one that has a value is valid.
Validity only grows with the labels that have values. Dividing by zero does depend on the values, so
an expression may have a value under one valuation and none under another one; only where divisors
depend on nothing is one valuation as good as any other. A valid expression divides by zero exactly
if the divisor of some division in it is zero, be it the one at which evaluation stops or a later
one.

## Main definitions

* `Expr.divisorsHardcoded`: no divisor depends on labels or the program counter
* `Expr.Divides`: an expression is the divisor of a division in another one
* `Expr.ComesTo`: evaluation comes to a symbol

## Main results

* `Expr.isValid_of_evaluate`: an expression with a value is valid
* `Expr.evaluate_ne_unknownLabel`: a valid expression lacks no label
* `Expr.evaluate_eq_unknownLabel_iff`: which label an expression lacks
* `Expr.evaluate_ne_divisionByZero`: an expression with hardcoded divisors that has a value under
  one valuation divides by zero under none
* `Expr.evaluate_eq_divisionByZero_iff`: a valid expression divides by zero exactly if a divisor is
  zero
* `Expr.validity_matches_evaluation`: what validity and hardcodedness tell about evaluation
-/

namespace Assembler6502

theorem Operator.apply_ne_unknownLabel (op : Operator) (a b : Value) (symbol : Symbol) :
    op.apply a b ≠ .error (.unknownLabel symbol) := by
  cases op with
  | divide =>
    simp only [Operator.apply]
    split <;> simp
  | _ => simp [Operator.apply]

/-- Only a division by zero has no result. -/
theorem Operator.apply_eq_divisionByZero {op : Operator} {a b : Value} :
    op.apply a b = .error .divisionByZero ↔ op = .divide ∧ b = 0 := by
  cases op with
  | divide =>
    simp only [Operator.apply]
    split <;> simp_all
  | _ => simp [Operator.apply]

namespace Expr

variable {ν ν' : Valuation} {known known' : Bool} {x d e : Expr} {rest : List (Operator × Expr)}
  {u v : Value}

/-! ## Labels -/

/-- Operations that succeed have operands with values, and no divisor among them is zero. -/
theorem evaluate_of_evaluateRest (h : evaluateRest ν u rest = .ok v) {y : Operator × Expr}
    (hy : y ∈ rest) : ∃ w, y.2.evaluate ν = .ok w ∧ (y.1 = .divide → w ≠ 0) := by
  induction rest generalizing u with
  | nil => cases hy
  | cons z rest ih =>
    rw [evaluateRest, bind_eq_ok] at h
    obtain ⟨w, hw, h⟩ := h
    obtain ⟨t, ht, hrest⟩ := bind_eq_ok.mp h
    rcases List.mem_cons.mp hy with rfl | hy
    · refine ⟨w, hw, fun hop hzero => ?_⟩
      rw [Operator.apply_eq_divisionByZero.mpr ⟨hop, hzero⟩] at ht
      cases ht
    · exact ih hrest hy

/-- An expression that has a value is valid. -/
theorem isValid_of_evaluate (h : e.evaluate ν = .ok v) : e.isValid ν true = true := by
  induction e using Expr.induction generalizing v with
  | constant _ => exact isValid_constant
  | symbol s =>
    rw [isValid_symbol]
    cases hs : ν.lookup s with
    | some v => rfl
    | none => simp [evaluate, hs] at h
  | programCounter => exact isValid_programCounter
  | highByte e ih | lowByte e ih =>
    rw [evaluate, bind_eq_ok] at h
    obtain ⟨a, ha, -⟩ := h
    simpa only [isValid_highByte, isValid_lowByte] using ih ha
  | chain first rest hfirst hrest =>
    rw [evaluate, bind_eq_ok] at h
    obtain ⟨a, ha, hoperands⟩ := h
    rw [isValid_chain, hfirst ha, Bool.true_and, List.all_eq_true]
    intro y hy
    obtain ⟨w, hw, -⟩ := evaluate_of_evaluateRest hoperands hy
    exact hrest y hy hw

/-- **Validity grows** with the labels that have values, and with what is known of the program
counter. -/
theorem isValid_mono (hν : ∀ s, (ν.lookup s).isSome → (ν'.lookup s).isSome)
    (hk : known = true → known' = true) (e : Expr) (h : e.isValid ν known = true) :
    e.isValid ν' known' = true := by
  rw [isValid_iff] at h ⊢
  obtain ⟨hsymbols, hpc⟩ := h
  exact ⟨fun s hs => hν s (hsymbols s hs), fun hs => hk (hpc hs)⟩

theorem isValid_congr (hν : ∀ s, (ν.lookup s).isSome = (ν'.lookup s).isSome) (e : Expr) :
    e.isValid ν known = e.isValid ν' known := by
  apply Bool.eq_iff_iff.mpr
  constructor
  · exact isValid_mono (fun s h => hν s ▸ h) id e
  · exact isValid_mono (fun s h => (hν s).symm ▸ h) id e

/-! ## The label that is missed -/

/-- Evaluation comes to a symbol: everything before it has a value. -/
inductive ComesTo (ν : Valuation) (s : Symbol) : Expr → Prop
  | symbol : ComesTo ν s (symbol s)
  | highByte {e : Expr} : ComesTo ν s e → ComesTo ν s (highByte e)
  | lowByte {e : Expr} : ComesTo ν s e → ComesTo ν s (lowByte e)
  | first {first : Expr} {rest : List (Operator × Expr)} :
    ComesTo ν s first → ComesTo ν s (chain first rest)
  | operand {first e : Expr} {before behind : List (Operator × Expr)} {op : Operator} {v : Value} :
    evaluate ν (chain first before) = .ok v → ComesTo ν s e →
      ComesTo ν s (chain first (before ++ (op, e) :: behind))

theorem evaluateRest_append (rest others : List (Operator × Expr)) (u : Value) :
    evaluateRest ν u (rest ++ others) = evaluateRest ν u rest >>= (evaluateRest ν · others) := by
  induction rest generalizing u with
  | nil =>
    rw [List.nil_append, evaluateRest]
    rfl
  | cons y rest ih =>
    rw [List.cons_append, evaluateRest, evaluateRest, bind_assoc]
    simp only [ih, bind_assoc]

/-- The operations of a chain lack a label where an operand does that they come to. -/
theorem evaluateRest_eq_unknownLabel {s : Symbol}
    (h : evaluateRest ν u rest = .error (.unknownLabel s)) :
    ∃ before op e behind v, rest = before ++ (op, e) :: behind ∧
      evaluateRest ν u before = .ok v ∧ e.evaluate ν = .error (.unknownLabel s) := by
  induction rest generalizing u with
  | nil =>
    rw [evaluateRest] at h
    cases h
  | cons y rest ih =>
    obtain ⟨op, e⟩ := y
    rw [evaluateRest, bind_eq_error] at h
    rcases h with he | ⟨w, hw, h⟩
    · exact ⟨[], op, e, rest, u, rfl, by rw [evaluateRest], he⟩
    · rcases bind_eq_error.mp h with happly | ⟨t, ht, hrest⟩
      · exact absurd happly (Operator.apply_ne_unknownLabel op u w s)
      · obtain ⟨before, op', e', behind, v, rfl, hbefore, he'⟩ := ih hrest
        refine ⟨(op, e) :: before, op', e', behind, v, rfl, ?_, he'⟩
        rw [evaluateRest]
        exact bind_eq_ok.mpr ⟨w, hw, bind_eq_ok.mpr ⟨t, ht, hbefore⟩⟩

theorem ComesTo.evaluate_eq {s : Symbol} (h : e.ComesTo ν s) (hs : ν.lookup s = none) :
    e.evaluate ν = .error (.unknownLabel s) := by
  induction h with
  | symbol => rw [evaluate, hs]
  | highByte _ ih | lowByte _ ih | first _ ih =>
    rw [evaluate, ih]
    rfl
  | operand hbefore _ ih =>
    rw [evaluate, bind_eq_ok] at hbefore
    obtain ⟨a, ha, hbefore⟩ := hbefore
    refine bind_eq_error.mpr (.inr ⟨a, ha, ?_⟩)
    rw [evaluateRest_append, hbefore]
    -- What comes before the operand has a value, so the operand is what is evaluated next.
    refine bind_eq_error.mpr (.inr ⟨_, rfl, ?_⟩)
    rw [evaluateRest]
    exact bind_eq_error.mpr (.inl ih)

/-- **An expression lacks a label** exactly if the label has no value and evaluation comes to it. -/
theorem evaluate_eq_unknownLabel_iff {s : Symbol} :
    e.evaluate ν = .error (.unknownLabel s) ↔ ν.lookup s = none ∧ e.ComesTo ν s := by
  refine ⟨fun h => ?_, fun h => h.2.evaluate_eq h.1⟩
  induction e using Expr.induction with
  | constant v | programCounter =>
    rw [evaluate] at h
    cases h
  | symbol t =>
    cases ht : ν.lookup t with
    | some v => simp [evaluate, ht] at h
    | none =>
      rw [evaluate, ht] at h
      cases h
      exact ⟨ht, .symbol⟩
  | highByte e ih =>
    rw [evaluate, bind_eq_error] at h
    rcases h with h | ⟨a, -, h⟩
    · exact ⟨(ih h).1, .highByte (ih h).2⟩
    · cases h
  | lowByte e ih =>
    rw [evaluate, bind_eq_error] at h
    rcases h with h | ⟨a, -, h⟩
    · exact ⟨(ih h).1, .lowByte (ih h).2⟩
    · cases h
  | chain first rest hfirst hrest =>
    rw [evaluate, bind_eq_error] at h
    rcases h with h | ⟨a, ha, h⟩
    · exact ⟨(hfirst h).1, .first (hfirst h).2⟩
    · -- The operands before the one that lacks the label have values, so evaluation comes to it.
      obtain ⟨before, op, e, behind, v, rfl, hbefore, he⟩ := evaluateRest_eq_unknownLabel h
      obtain ⟨hs, hcomes⟩ := hrest (op, e) (by simp) he
      refine ⟨hs, .operand (v := v) ?_ hcomes⟩
      rw [evaluate]
      exact bind_eq_ok.mpr ⟨a, ha, hbefore⟩

theorem ComesTo.occurs {s : Symbol} (h : e.ComesTo ν s) : (Expr.symbol s).Occurs e := by
  induction h with
  | symbol => exact .self
  | highByte _ ih => exact .highByte ih
  | lowByte _ ih => exact .lowByte ih
  | first _ ih => exact .first ih
  | operand _ _ ih => exact .operand (List.mem_append_right _ List.mem_cons_self) ih

/-- **A valid expression lacks no label**: if it has no value, then it divides by zero. -/
theorem evaluate_ne_unknownLabel (h : e.isValid ν known = true) (s : Symbol) :
    e.evaluate ν ≠ .error (.unknownLabel s) := by
  intro hfail
  obtain ⟨hnone, hcomes⟩ := evaluate_eq_unknownLabel_iff.mp hfail
  have hsome := (isValid_iff.mp h).1 s hcomes.occurs
  rw [hnone] at hsome
  cases hsome

theorem exists_error_of_occurs {s : Symbol} (hs : ν.lookup s = none) (h : (symbol s).Occurs e) :
    ∃ err, e.evaluate ν = .error err := by
  cases he : e.evaluate ν with
  | error err => exact ⟨err, rfl⟩
  | ok v =>
    have hsome := (isValid_iff.mp (isValid_of_evaluate he)).1 s h
    rw [hs] at hsome
    cases hsome

/-! ## The program counter and hardcoded expressions -/

theorem evaluate_of_isValid (h : e.isValid ν false = true) (pc : Value) :
    e.evaluate { ν with pc } = e.evaluate ν := by
  apply evaluate_congr
  · exact fun _ _ => rfl
  · intro hpc
    cases (isValid_iff.mp h).2 hpc

theorem evaluate_of_isHardcoded (ν ν' : Valuation) (e : Expr) (h : e.isHardcoded = true) :
    e.evaluate ν = e.evaluate ν' := by
  obtain ⟨hsymbols, hpc⟩ := isHardcoded_iff.mp h
  exact evaluate_congr (fun s hs => absurd hs (hsymbols s)) fun hs => absurd hs hpc

/-! ## Division by zero -/

/-- An expression is the divisor of a division that is a part of another expression. -/
def Divides (d e : Expr) : Prop :=
  ∃ first rest, (chain first rest).Occurs e ∧ (.divide, d) ∈ rest

/-- An expression with a value has no divisor that is zero. -/
theorem evaluate_divisor_ne_zero (h : e.evaluate ν = .ok v) (hd : d.Divides e) :
    d.evaluate ν ≠ .ok 0 := by
  obtain ⟨first, rest, hchain, hmem⟩ := hd
  induction e using Expr.induction generalizing v with
  | constant _ | symbol _ | programCounter => simp at hchain
  | highByte e ih | lowByte e ih =>
    rw [evaluate, bind_eq_ok] at h
    obtain ⟨a, ha, -⟩ := h
    exact ih ha (by simpa using hchain)
  | chain first' rest' hfirst hrest =>
    rw [evaluate, bind_eq_ok] at h
    obtain ⟨a, ha, hrest'⟩ := h
    -- The division is one of this chain, or it stands in the first operand or in a later one.
    rcases occurs_chain.mp hchain with hsame | hchain | ⟨y, hy, hchain⟩
    · cases hsame
      obtain ⟨w, hw, hzero⟩ := evaluate_of_evaluateRest hrest' hmem
      rw [hw]
      rintro ⟨⟩
      exact hzero rfl rfl
    · exact hfirst ha hchain
    · obtain ⟨w, hw, -⟩ := evaluate_of_evaluateRest hrest' hy
      exact hrest y hy hw hchain

/-- Operations that divide by zero have an operand that divides by zero, or one that is zero and a
divisor. -/
theorem evaluateRest_eq_divisionByZero (h : evaluateRest ν u rest = .error .divisionByZero) :
    ∃ y ∈ rest, y.2.evaluate ν = .error .divisionByZero ∨
      y.1 = .divide ∧ y.2.evaluate ν = .ok 0 := by
  induction rest generalizing u with
  | nil =>
    rw [evaluateRest] at h
    cases h
  | cons z rest ih =>
    rw [evaluateRest, bind_eq_error] at h
    rcases h with hz | ⟨w, hw, h⟩
    · exact ⟨z, List.mem_cons_self, .inl hz⟩
    · rcases bind_eq_error.mp h with happly | ⟨t, -, hrest⟩
      · obtain ⟨hop, rfl⟩ := Operator.apply_eq_divisionByZero.mp happly
        exact ⟨z, List.mem_cons_self, .inr ⟨hop, hw⟩⟩
      · obtain ⟨y, hy, hzero⟩ := ih hrest
        exact ⟨y, List.mem_cons_of_mem _ hy, hzero⟩

theorem Divides.mono (hd : d.Divides x) (hx : ∀ y : Expr, y.Occurs x → y.Occurs e) :
    d.Divides e := by
  obtain ⟨first, rest, hchain, hmem⟩ := hd
  exact ⟨first, rest, hx _ hchain, hmem⟩

/-- An expression that divides by zero has a divisor that is zero. -/
theorem exists_divisor_eq_zero (h : e.evaluate ν = .error .divisionByZero) :
    ∃ d : Expr, d.Divides e ∧ d.evaluate ν = .ok 0 := by
  induction e using Expr.induction with
  | constant v =>
    rw [evaluate] at h
    cases h
  | symbol s =>
    rw [evaluate] at h
    split at h <;> cases h
  | programCounter =>
    rw [evaluate] at h
    cases h
  | highByte e ih =>
    rw [evaluate, bind_eq_error] at h
    rcases h with h | ⟨a, -, h⟩
    · obtain ⟨d, hd, hzero⟩ := ih h
      exact ⟨d, hd.mono fun _ => .highByte, hzero⟩
    · cases h
  | lowByte e ih =>
    rw [evaluate, bind_eq_error] at h
    rcases h with h | ⟨a, -, h⟩
    · obtain ⟨d, hd, hzero⟩ := ih h
      exact ⟨d, hd.mono fun _ => .lowByte, hzero⟩
    · cases h
  | chain first rest hfirst hrest =>
    rw [evaluate, bind_eq_error] at h
    rcases h with h | ⟨a, -, h⟩
    · obtain ⟨d, hd, hzero⟩ := hfirst h
      exact ⟨d, hd.mono fun _ => .first, hzero⟩
    · -- An operand fails on its own, or the chain divides by it.
      obtain ⟨⟨op, y⟩, hy, h | ⟨rfl, hzero⟩⟩ := evaluateRest_eq_divisionByZero h
      · obtain ⟨d, hd, hzero⟩ := hrest _ hy h
        exact ⟨d, hd.mono fun _ => .operand hy, hzero⟩
      · exact ⟨y, ⟨first, rest, .self, hy⟩, hzero⟩

/-- **A valid expression divides by zero** exactly if a divisor in it is zero. -/
theorem evaluate_eq_divisionByZero_iff (h : e.isValid ν known = true) :
    e.evaluate ν = .error .divisionByZero ↔ ∃ d : Expr, d.Divides e ∧ d.evaluate ν = .ok 0 := by
  refine ⟨exists_divisor_eq_zero, ?_⟩
  rintro ⟨d, hd, hzero⟩
  cases he : e.evaluate ν with
  | ok v => exact absurd hzero (evaluate_divisor_ne_zero he hd)
  | error err =>
    cases err with
    | unknownLabel s => exact absurd he (evaluate_ne_unknownLabel h s)
    | divisionByZero => rfl

/-! ## Hardcoded divisors -/

mutual

/-- Whether no divisor depends on labels or the program counter. -/
def divisorsHardcoded : Expr → Bool
  | constant _ | symbol _ | programCounter => true
  | highByte e => divisorsHardcoded e
  | lowByte e => divisorsHardcoded e
  | chain first rest => divisorsHardcoded first && allDivisorsHardcoded rest

/-- Whether no divisor in a list of operations depends on labels or the program counter. -/
def allDivisorsHardcoded : List (Operator × Expr) → Bool
  | [] => true
  | (op, e) :: rest =>
    (decide (op ≠ .divide) || isHardcoded e) && divisorsHardcoded e && allDivisorsHardcoded rest

end

theorem allDivisorsHardcoded_iff : allDivisorsHardcoded rest = true ↔ ∀ y ∈ rest,
    (y.1 = .divide → y.2.isHardcoded = true) ∧ y.2.divisorsHardcoded = true := by
  induction rest with
  | nil => simp [allDivisorsHardcoded]
  | cons y rest ih => simp [allDivisorsHardcoded, ih, Decidable.imp_iff_not_or]

theorem isHardcoded_of_divides (h : e.divisorsHardcoded = true) (hd : d.Divides e) :
    d.isHardcoded = true := by
  obtain ⟨first, rest, hchain, hmem⟩ := hd
  induction hchain with
  | self =>
    rw [divisorsHardcoded, Bool.and_eq_true] at h
    exact (allDivisorsHardcoded_iff.mp h.2 _ hmem).1 rfl
  | highByte _ ih | lowByte _ ih =>
    rw [divisorsHardcoded] at h
    exact ih h
  | first _ ih =>
    rw [divisorsHardcoded, Bool.and_eq_true] at h
    exact ih h.1
  | operand hy _ ih =>
    rw [divisorsHardcoded, Bool.and_eq_true] at h
    exact ih (allDivisorsHardcoded_iff.mp h.2 _ hy).2

/-- **Hardcoded divisors.** If an expression has a value under one valuation and no divisor depends
on labels or the program counter, then it divides by zero under no valuation. -/
theorem evaluate_ne_divisionByZero (ν' : Valuation) (hd : e.divisorsHardcoded = true)
    (h : e.evaluate ν = .ok v) : e.evaluate ν' ≠ .error .divisionByZero := by
  intro hfail
  -- The divisor that is zero has the same value under both valuations.
  obtain ⟨d, hdivides, hzero⟩ := exists_divisor_eq_zero hfail
  rw [evaluate_of_isHardcoded ν' ν d (isHardcoded_of_divides hd hdivides)] at hzero
  exact evaluate_divisor_ne_zero h hdivides hzero

/-! ## Validity and evaluation -/

/-- **Validity and evaluation agree.** An expression that has a value is valid, and one that is
valid lacks no label. If it is valid without the program counter, it does not depend on it.
Hardcoded are the expressions in which neither labels nor the program counter occur. They are valid
whatever is known, and have the same value under every valuation. -/
theorem validity_matches_evaluation (e : Expr) (ν : Valuation) :
    (∀ v, e.evaluate ν = .ok v → e.isValid ν true = true) ∧
      (e.isValid ν true = true → ∀ s, e.evaluate ν ≠ .error (.unknownLabel s)) ∧
      (e.isValid ν false = true → ∀ pc, e.evaluate { ν with pc } = e.evaluate ν) ∧
      (e.isHardcoded = true ↔ (∀ s, ¬ (symbol s).Occurs e) ∧ ¬ programCounter.Occurs e) ∧
      (e.isHardcoded = true →
        (∀ known, e.isValid ν known = true) ∧ ∀ ν', e.evaluate ν' = e.evaluate ν) := by
  refine ⟨fun v => isValid_of_evaluate, evaluate_ne_unknownLabel, evaluate_of_isValid,
    isHardcoded_iff, fun h => ⟨fun known => isValid_of_isHardcoded e h, fun ν' => ?_⟩⟩
  exact evaluate_of_isHardcoded ν' ν e h

/-- The label `_count` has a value, and no other label. -/
def counting : Valuation :=
  ⟨fun s => if s = .inScope "count" then some 3 else none, 0x8000⟩

/-- The expression `[_count + >^]`. -/
def countBesidePc : Expr :=
  chain (symbol (.inScope "count")) [(.add, highByte programCounter)]

theorem validity_matches_evaluation_counting :
    (countBesidePc.evaluate counting = .ok 0x83 ∧ countBesidePc.isValid counting true = true ∧
      ∀ s, countBesidePc.evaluate counting ≠ .error (.unknownLabel s)) ∧
      ((symbol (.inScope "count")).isValid counting false = true ∧
        ∀ pc, (symbol (.inScope "count")).evaluate { counting with pc } = .ok 3) ∧
      ((highByte (constant 0xbeef)).isHardcoded = true ∧
        ∀ ν', (highByte (constant 0xbeef)).evaluate ν' = .ok 0xbe) := by
  have hvalue : countBesidePc.evaluate counting = .ok 0x83 := rfl
  have hvalid := (validity_matches_evaluation countBesidePc counting).1 _ hvalue
  have hcount : (symbol (.inScope "count")).isValid counting false = true := by decide
  refine ⟨⟨hvalue, hvalid, ?_⟩, ⟨hcount, fun pc => ?_⟩, rfl, fun ν' => ?_⟩
  · exact (validity_matches_evaluation countBesidePc counting).2.1 hvalid
  · rw [(validity_matches_evaluation _ counting).2.2.1 hcount pc]
    rfl
  · rw [((validity_matches_evaluation _ counting).2.2.2.2 rfl).2 ν']
    rfl

end Expr
end Assembler6502
