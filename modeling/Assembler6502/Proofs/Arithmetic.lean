import Assembler6502.Proofs.Validity
import Mathlib.Data.Int.Bitwise

/-!
# Arithmetic on words and on integers

Expressions are evaluated in signed words of 64 bits. Beside that stands evaluation over the
integers: every operator has its exact result, a quotient is rounded to the floor, and the bits of
an integer are those of its two's complement, which goes on to the left without end. Words are
integers modulo `2^64`, so evaluation in words is evaluation over the integers with every result
reduced to the range of a word.

Sums, differences, products, bits and bytes of the reduced operands are those of the operands,
reduced. This is not so for quotients, so it is for expressions without divisions that one reduction
at the end is enough.

## Main definitions

* `Value.wrap`: an integer reduced to the range of a word
* `Operator.exact`: the result of an operator on integers
* `Expr.integerValue`: the value of an expression over the integers

## Main results

* `Value.floorDiv_eq`: quotients of words are those of integers, rounded to the floor and reduced
* `Operator.apply_eq`, `Operator.apply_ofInt`: operators on words and on integers
* `Expr.arithmetic_is_exact`: evaluation in words and over the integers
-/

namespace Assembler6502

/-! ## Words and integers -/

namespace Value

/-- The integer in the range of a word that is the same modulo `2^64`. -/
def wrap (n : Int) : Int :=
  n.bmod (2 ^ 64)

theorem toInt_ofInt (n : Int) : (Int64.ofInt n).toInt = wrap n :=
  Int64.toInt_ofInt

theorem ofInt_wrap (n : Int) : Int64.ofInt (wrap n) = Int64.ofInt n := by
  rw [← toInt_ofInt, Int64.ofInt_toInt]

/-- The bits of a word are the last bits of the two's complement. -/
theorem getLsbD_ofInt (width : Nat) (n : Int) (i : Nat) :
    (BitVec.ofInt width n).getLsbD i = (decide (i < width) && n.testBit i) := by
  cases n with
  | ofNat m =>
    show (BitVec.ofNat width m).getLsbD i = _
    rw [BitVec.getLsbD_ofNat]
    rfl
  | negSucc m =>
    rw [BitVec.ofInt_negSucc_eq_not_ofNat, BitVec.getLsbD_not, BitVec.getLsbD_ofNat]
    by_cases h : i < width
    · simp [h, Int.testBit]
    · simp [h]

theorem getLsbD_toBitVec_ofInt (n : Int) {i : Nat} (hi : i < 64) :
    (Int64.ofInt n).toBitVec.getLsbD i = n.testBit i := by
  rw [Int64.toBitVec_ofInt, getLsbD_ofInt]
  simp [hi]

/-- An operation that goes bit by bit is the same on integers and on the words of these. -/
theorem ofInt_bitwise {f : Bool → Bool → Bool} {g : Value → Value → Value}
    (hg : ∀ v w i, (g v w).toBitVec.getLsbD i =
      f (v.toBitVec.getLsbD i) (w.toBitVec.getLsbD i)) (a b : Int) :
    Int64.ofInt (Int.bitwise f a b) = g (Int64.ofInt a) (Int64.ofInt b) := by
  apply Int64.toBitVec_inj.mp
  apply BitVec.eq_of_getLsbD_eq
  intro i hi
  rw [hg, getLsbD_toBitVec_ofInt _ hi, getLsbD_toBitVec_ofInt a hi, getLsbD_toBitVec_ofInt b hi,
    Int.testBit_bitwise]

theorem ofInt_land (a b : Int) : Int64.ofInt (Int.land a b) = Int64.ofInt a &&& Int64.ofInt b := by
  rw [← Int.bitwise_and]
  exact ofInt_bitwise (fun v w i => by rw [Int64.toBitVec_and, BitVec.getLsbD_and]) a b

theorem ofInt_lor (a b : Int) : Int64.ofInt (Int.lor a b) = Int64.ofInt a ||| Int64.ofInt b := by
  rw [← Int.bitwise_or]
  exact ofInt_bitwise (fun v w i => by rw [Int64.toBitVec_or, BitVec.getLsbD_or]) a b

theorem ofInt_xor (a b : Int) : Int64.ofInt (Int.xor a b) = Int64.ofInt a ^^^ Int64.ofInt b := by
  rw [← Int.bitwise_xor]
  exact ofInt_bitwise (fun v w i => by rw [Int64.toBitVec_xor, BitVec.getLsbD_xor]) a b

theorem toInt_lowByte (v : Value) : (v &&& 0xff).toInt = wrap (v.toInt % 256) := by
  have hmask : (Int64.toBitVec 0xff).toNat = 2 ^ 8 - 1 := rfl
  have hbits : v &&& 0xff = Int64.ofInt (v.toInt % 256) := by
    rw [← Int64.toBitVec_inj, Int64.toBitVec_and, ← BitVec.toNat_inj, BitVec.toNat_and, hmask,
      Nat.and_two_pow_sub_one_eq_mod, Int64.toBitVec_ofInt, BitVec.toNat_ofInt]
    have hword : v.toInt = (v.toBitVec.toNat : Int).bmod (2 ^ 64) := BitVec.toInt_eq_toNat_bmod _
    rw [hword, Int.bmod_def]
    split <;> omega
  rw [hbits, toInt_ofInt]

/-- The byte before the last one of a word. The sign is shifted in, but not into this byte. -/
theorem toInt_highByte (v : Value) : ((v >>> 8) &&& 0xff).toInt = wrap (v.toInt / 256 % 256) := by
  have hshift : (v >>> 8).toInt = v.toInt / 256 := by
    have hbits : (v >>> 8).toInt = (v.toBitVec.sshiftRight 8).toInt := rfl
    rw [hbits, BitVec.toInt_sshiftRight, Int.shiftRight_eq_div_pow]
    rfl
  rw [toInt_lowByte, hshift]

/-- Reducing adds a multiple of `2^64`, of which nothing is left in the last bytes. -/
theorem wrap_lowByte (n : Int) : wrap n % 256 = n % 256 := by
  rw [wrap, Int.bmod_def]
  split <;> omega

theorem wrap_highByte (n : Int) : wrap n / 256 % 256 = n / 256 % 256 := by
  rw [wrap, Int.bmod_def]
  split <;> omega

/-! ## Quotients -/

/-- The floor of a quotient is one less than the quotient rounded to zero, if there is a remainder
and the signs differ. -/
theorem fdiv_eq {a b : Int} (hb : b ≠ 0) :
    a.fdiv b = if a.tmod b ≠ 0 ∧ (a < 0 ↔ 0 < b) then a.tdiv b - 1 else a.tdiv b := by
  rw [Int.fdiv_eq_tdiv]
  by_cases hdvd : b ∣ a
  · simp [hdvd, Int.tmod_eq_zero_of_dvd hdvd]
  have hrem : a.tmod b ≠ 0 := fun h => hdvd (Int.dvd_of_tmod_eq_zero h)
  simp only [hdvd, hrem, if_false, ne_eq, not_false_eq_true, true_and]
  rcases Int.lt_or_gt_of_ne hb with hneg | hpos
  · rw [Int.sign_eq_neg_one_of_neg hneg]
    split <;> split <;> omega
  · rw [Int.sign_eq_one_of_pos hpos]
    split <;> split <;> omega

theorem div_eq (a b : Value) : a / b = Int64.ofInt (a.toInt.tdiv b.toInt) := by
  rw [← Int64.toInt_inj, Int64.toInt_div, toInt_ofInt, wrap]

/-- **Division** of words is division of integers, rounded to the floor and reduced. -/
theorem floorDiv_eq {a b : Value} (hb : b ≠ 0) :
    floorDiv a b = Int64.ofInt (a.toInt.fdiv b.toInt) := by
  have hb' : b.toInt ≠ 0 := fun h => hb (Int64.toInt_inj.mp h)
  -- Words have the same remainders and signs, so both quotients are corrected or none of them.
  have hrem : (a % b != 0) = true ↔ a.toInt.tmod b.toInt ≠ 0 := by
    rw [bne_iff_ne, ne_eq, ← Int64.toInt_inj, Int64.toInt_mod]
    rfl
  have hsigns : (decide (a < 0) != decide (b < 0)) = true ↔ (a.toInt < 0 ↔ 0 < b.toInt) := by
    have hzero : (0 : Value).toInt = 0 := rfl
    simp only [Int64.lt_iff_toInt_lt, hzero, bne_iff_ne, ne_eq, decide_eq_decide]
    omega
  simp only [floorDiv, Bool.and_eq_true, hrem, hsigns, fdiv_eq hb', div_eq]
  split
  · rw [Int64.ofInt_sub]
    rfl
  · rfl

/-- The correction to the floor does not leave the range. -/
theorem toInt_div_sub_one {a b : Value} (hrem : a % b ≠ 0) :
    (a / b - 1).toInt = (a / b).toInt - 1 := by
  -- A divisor of one or minus one leaves no remainder, and by any other one the quotient is at most
  -- half as large as the dividend.
  have hunit : b.toInt.natAbs ≠ 1 := by
    intro h
    apply hrem
    rw [← Int64.toInt_inj, Int64.toInt_mod]
    exact Int.tmod_eq_zero_of_dvd (Int.natAbs_dvd.mp (by simp [h]))
  have hhalf : (a.toInt.tdiv b.toInt).natAbs ≤ 2 ^ 62 := by
    have hdividend : a.toInt.natAbs ≤ 2 ^ 63 := by
      have := a.le_toInt
      have := a.toInt_lt
      omega
    rw [Int.natAbs_tdiv]
    rcases Nat.eq_zero_or_pos b.toInt.natAbs with hzero | hpos
    · rw [hzero]
      exact Nat.le_trans (Nat.le_of_eq (Nat.div_zero _)) (Nat.zero_le _)
    · calc a.toInt.natAbs / b.toInt.natAbs
          ≤ a.toInt.natAbs / 2 := Nat.div_le_div_left (by omega) (by omega)
        _ ≤ 2 ^ 62 := by omega
  have hquotient : (a / b).toInt = a.toInt.tdiv b.toInt := by
    rw [Int64.toInt_div]
    exact Int.bmod_eq_of_le (by omega) (by omega)
  have hone : (1 : Value).toInt = 1 := rfl
  rw [Int64.toInt_sub, hone, hquotient]
  exact Int.bmod_eq_of_le (by omega) (by omega)

end Value

/-! ## Operators -/

namespace Operator

/-- The exact result of an operator on integers. Quotients are rounded to the floor, and bits are
those of the two's complement. -/
def exact : Operator → Int → Int → Except EvalError Int
  | multiply, a, b => .ok (a * b)
  | divide, a, b => if b = 0 then .error .divisionByZero else .ok (a.fdiv b)
  | add, a, b => .ok (a + b)
  | subtract, a, b => .ok (a - b)
  | and, a, b => .ok (Int.land a b)
  | or, a, b => .ok (Int.lor a b)
  | xor, a, b => .ok (Int.xor a b)

/-- An operator other than division has the same result on integers and on the words of these. -/
theorem apply_ofInt {op : Operator} (hop : op ≠ .divide) (a b : Int) :
    op.apply (Int64.ofInt a) (Int64.ofInt b) = (op.exact a b).map Int64.ofInt := by
  cases op with
  | divide => exact absurd rfl hop
  | multiply => exact congrArg _ (Int64.ofInt_mul a b).symm
  | add => exact congrArg _ (Int64.ofInt_add a b).symm
  | subtract => exact congrArg _ (Int64.ofInt_sub a b).symm
  | and => exact congrArg _ (Value.ofInt_land a b).symm
  | or => exact congrArg _ (Value.ofInt_lor a b).symm
  | xor => exact congrArg _ (Value.ofInt_xor a b).symm

/-- **An operator on words** has the exact result, reduced. -/
theorem apply_eq (op : Operator) (a b : Value) :
    op.apply a b = (op.exact a.toInt b.toInt).map Int64.ofInt := by
  by_cases hop : op = .divide
  · subst hop
    have hzero : b.toInt = 0 ↔ b = 0 := Int64.toInt_inj (y := 0)
    simp only [apply, exact, hzero]
    split
    · rfl
    · next hb => exact congrArg _ (Value.floorDiv_eq hb)
  · rw [← apply_ofInt hop, Int64.ofInt_toInt, Int64.ofInt_toInt]

/-- Reducing the operands first changes the result by a multiple of `2^64`. Division apart, there
always is a result. -/
theorem exact_wrap {op : Operator} (hop : op ≠ .divide) (a b : Int) :
    ∃ k k', op.exact a b = .ok k ∧ op.exact (Value.wrap a) (Value.wrap b) = .ok k' ∧
      Value.wrap k' = Value.wrap k := by
  have hwords : (op.exact (Value.wrap a) (Value.wrap b)).map Int64.ofInt =
      (op.exact a b).map Int64.ofInt := by
    rw [← apply_ofInt hop, ← apply_ofInt hop, Value.ofInt_wrap, Value.ofInt_wrap]
  cases op with
  | divide => exact absurd rfl hop
  | _ =>
    have hword := congrArg Int64.toInt (Except.ok.inj hwords)
    rw [Value.toInt_ofInt, Value.toInt_ofInt] at hword
    exact ⟨_, _, rfl, rfl, hword⟩

end Operator

/-! ## Expressions -/

namespace Expr

mutual

/-- The value of an expression over the integers, where every result on the way is reduced in some
way, or not at all. Chains are worked off from left to right. -/
def integerValue (reduce : Int → Int) (ν : Valuation) : Expr → Except EvalError Int
  | constant v => .ok v.toInt
  | symbol s =>
    match ν.lookup s with
    | some v => .ok v.toInt
    | none => .error (.unknownLabel s)
  | programCounter => .ok ν.pc.toInt
  | highByte e => do
    let n ← integerValue reduce ν e
    return reduce (n / 256 % 256)
  | lowByte e => do
    let n ← integerValue reduce ν e
    return reduce (n % 256)
  | chain first rest => do
    let n ← integerValue reduce ν first
    integerRest reduce ν n rest

/-- Applies the operations of a chain to the integer reached so far. -/
def integerRest (reduce : Int → Int) (ν : Valuation) (n : Int) :
    List (Operator × Expr) → Except EvalError Int
  | [] => .ok n
  | (op, e) :: rest => do
    let m ← integerValue reduce ν e
    let k ← op.exact n m
    integerRest reduce ν (reduce k) rest

end

variable {ν : Valuation} {e : Expr} {rest : List (Operator × Expr)}

theorem map_evaluateRest
    (h : ∀ y ∈ rest, (y.2.evaluate ν).map Int64.toInt = y.2.integerValue Value.wrap ν) (v : Value) :
    (evaluateRest ν v rest).map Int64.toInt = integerRest Value.wrap ν v.toInt rest := by
  induction rest generalizing v with
  | nil =>
    rw [evaluateRest, integerRest]
    rfl
  | cons y rest ih =>
    obtain ⟨hy, hrest⟩ := List.forall_mem_cons.mp h
    rw [evaluateRest, integerRest, ← hy]
    apply map_bind_eq_bind
    intro w
    -- The operator fails on both sides, or the word of its result is the result reduced.
    rw [Operator.apply_eq]
    cases y.1.exact v.toInt w.toInt with
    | error err => rfl
    | ok k =>
      have hk := ih hrest (Int64.ofInt k)
      rw [Value.toInt_ofInt] at hk
      exact hk

/-- **Evaluation in words** is evaluation over the integers with every result reduced. -/
theorem map_evaluate (e : Expr) (ν : Valuation) :
    (e.evaluate ν).map Int64.toInt = e.integerValue Value.wrap ν := by
  induction e using Expr.induction with
  | constant v =>
    rw [evaluate, integerValue]
    rfl
  | symbol s =>
    rw [evaluate, integerValue]
    cases ν.lookup s <;> rfl
  | programCounter =>
    rw [evaluate, integerValue]
    rfl
  | highByte e ih =>
    rw [evaluate, integerValue, ← ih]
    apply map_bind_eq_bind
    exact fun v => congrArg Except.ok (Value.toInt_highByte v)
  | lowByte e ih =>
    rw [evaluate, integerValue, ← ih]
    apply map_bind_eq_bind
    exact fun v => congrArg Except.ok (Value.toInt_lowByte v)
  | chain first rest hfirst hrest =>
    rw [evaluate, integerValue, ← hfirst]
    apply map_bind_eq_bind
    exact map_evaluateRest hrest

/-! ## Expressions without divisions -/

theorem map_integerRest (hops : ∀ y ∈ rest, y.1 ≠ .divide)
    (h : ∀ y ∈ rest, (y.2.integerValue id ν).map Value.wrap = y.2.integerValue Value.wrap ν)
    (n : Int) :
    (integerRest id ν n rest).map Value.wrap = integerRest Value.wrap ν (Value.wrap n) rest := by
  induction rest generalizing n with
  | nil =>
    rw [integerRest, integerRest]
    rfl
  | cons y rest ih =>
    obtain ⟨hop, hops⟩ := List.forall_mem_cons.mp hops
    obtain ⟨hy, hrest⟩ := List.forall_mem_cons.mp h
    rw [integerRest, integerRest, ← hy]
    apply map_bind_eq_bind
    intro m
    -- The results with and without reduced operands differ, but not once they are reduced.
    obtain ⟨k, k', hk, hk', hwrap⟩ := Operator.exact_wrap hop n m
    rw [hk, hk']
    have hreduced := ih hops hrest k
    rw [← hwrap] at hreduced
    exact hreduced

/-- **Without divisions**, reducing every result is reducing the last one. -/
theorem map_integerValue (hfree : ∀ d : Expr, ¬ d.Divides e) :
    (e.integerValue id ν).map Value.wrap = e.integerValue Value.wrap ν := by
  induction e using Expr.induction with
  | constant v =>
    rw [integerValue, integerValue]
    exact congrArg Except.ok (v.toInt_bmod_size)
  | symbol s =>
    rw [integerValue, integerValue]
    cases ν.lookup s with
    | none => rfl
    | some v => exact congrArg Except.ok (v.toInt_bmod_size)
  | programCounter =>
    rw [integerValue, integerValue]
    exact congrArg Except.ok (ν.pc.toInt_bmod_size)
  | highByte e ih =>
    rw [integerValue, integerValue, ← ih fun d hd => hfree d (hd.mono fun _ => .highByte)]
    apply map_bind_eq_bind
    intro n
    rw [Value.wrap_highByte]
    rfl
  | lowByte e ih =>
    rw [integerValue, integerValue, ← ih fun d hd => hfree d (hd.mono fun _ => .lowByte)]
    apply map_bind_eq_bind
    intro n
    rw [Value.wrap_lowByte]
    rfl
  | chain first rest hfirst hrest =>
    rw [integerValue, integerValue, ← hfirst fun d hd => hfree d (hd.mono fun _ => .first)]
    apply map_bind_eq_bind
    apply map_integerRest
    · -- An operand behind a division sign would be a divisor.
      rintro ⟨op, d⟩ hy rfl
      exact hfree d ⟨first, rest, .self, hy⟩
    · exact fun y hy => hrest y hy fun d hd => hfree d (hd.mono fun _ => .operand hy)

/-! ## Exactness -/

/-- **Arithmetic is exact modulo `2^64`.** The value of an expression is its value over the integers
with every result reduced to the range of a word. It is by a divisor that is zero that an expression
divides by zero, and where all labels have values, every such divisor has this effect. Where a
quotient is corrected to the floor, the correction does not leave the range. The value of an
expression without divisions is its exact value over the integers, reduced once. -/
theorem arithmetic_is_exact (e : Expr) (ν : Valuation) :
    (e.evaluate ν).map Int64.toInt = e.integerValue Value.wrap ν ∧
      (e.evaluate ν = .error .divisionByZero → ∃ d : Expr, d.Divides e ∧ d.evaluate ν = .ok 0) ∧
      (e.isValid ν true = true → (∃ d : Expr, d.Divides e ∧ d.evaluate ν = .ok 0) →
        e.evaluate ν = .error .divisionByZero) ∧
      (∀ a b : Value, a % b ≠ 0 → (a / b - 1).toInt = (a / b).toInt - 1) ∧
      ((∀ d : Expr, ¬ d.Divides e) →
        (e.evaluate ν).map Int64.toInt = (e.integerValue id ν).map Value.wrap) := by
  refine ⟨map_evaluate e ν, exists_divisor_eq_zero, fun h => (evaluate_eq_divisionByZero_iff h).mpr,
    fun a b => Value.toInt_div_sub_one, fun hfree => ?_⟩
  rw [map_evaluate, map_integerValue hfree]

/-- The expression `>[[-$8000000000000000 * 3] ^ -$ff00]`, which leaves the range on the way. -/
def farOut : Expr :=
  highByte (chain (constant Int64.minValue) [(.multiply, constant 3), (.xor, constant (-0xff00))])

/-- The expression `[1 / [2 - 2]]`. -/
def byNothing : Expr :=
  chain (constant 1) [(.divide, chain (constant 2) [(.subtract, constant 2)])]

theorem arithmetic_is_exact_farOut :
    ((∀ d : Expr, ¬ d.Divides farOut) ∧ (farOut.evaluate counting).map Int64.toInt = .ok 1) ∧
      (byNothing.isValid counting true = true ∧
        byNothing.evaluate counting = .error .divisionByZero) ∧
      (Int64.minValue % 3 ≠ 0 ∧ (Int64.minValue / 3 - 1).toInt = -3074457345618258603) := by
  have hfree : ∀ d : Expr, ¬ d.Divides farOut := by
    rintro d ⟨first, rest, hchain, hmem⟩
    simp_all [farOut]
  have hzero : ∃ d : Expr, d.Divides byNothing ∧ d.evaluate counting = .ok 0 :=
    ⟨_, ⟨_, _, .self, List.mem_singleton_self _⟩, rfl⟩
  obtain ⟨-, -, hdivision, hcorrection, -⟩ := arithmetic_is_exact byNothing counting
  refine ⟨⟨hfree, ?_⟩, ⟨rfl, hdivision rfl hzero⟩, by decide, ?_⟩
  · rw [(arithmetic_is_exact farOut counting).2.2.2.2 hfree]
    rfl
  · rw [hcorrection _ _ (by decide)]
    decide

end Expr
end Assembler6502
