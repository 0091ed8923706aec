import Assembler6502.Assembly
import Assembler6502.Proofs.Extension

/-!
# Relocation of branch targets

An expression that mentions the program counter means something else at another address: moving it
by some bytes is to read the program counter as that much more. The jump that takes the place of a
branch has the operand of the branch and stands behind the opposite branch, so it goes to the target
of the branch exactly if the target has the same value with every mention of the program counter
raised by two. For sums and differences that can be read off the target: its value moves by two for
every mention of the program counter that is added, and back by two for every one that is
subtracted.

## Main definitions

* `Expr.shifted`: the expression with every mention of the program counter raised
* `Expr.slope?`: by how much the value grows with the program counter, where the program counter is
  only added and subtracted

## Main results

* `Expr.evaluate_shifted`: an expression at a raised program counter
* `Expr.evaluate_slope`: the value of an expression with a slope at a raised program counter
* `Pass.target_of_extended`: where the jump in the place of a branch goes
-/

namespace Assembler6502

namespace Expr

/-! ## Raising the program counter -/

mutual

/-- The expression with every mention of the program counter raised. -/
def shifted (δ : Value) : Expr → Expr
  | constant v => constant v
  | symbol s => symbol s
  | programCounter => pcPlus δ
  | highByte e => highByte (shifted δ e)
  | lowByte e => lowByte (shifted δ e)
  | chain first rest => chain (shifted δ first) (shiftedRest δ rest)

/-- The operations of a chain with every mention of the program counter raised. -/
def shiftedRest (δ : Value) : List (Operator × Expr) → List (Operator × Expr)
  | [] => []
  | (op, e) :: rest => (op, shifted δ e) :: shiftedRest δ rest

end

mutual

/-- **An expression at a raised program counter** has the value of the raised expression. -/
theorem evaluate_shifted (lookup : Symbol → Option Value) (pc δ : Value) : ∀ e : Expr,
    (e.shifted δ).evaluate ⟨lookup, pc⟩ = e.evaluate ⟨lookup, pc + δ⟩
  | constant v => rfl
  | symbol s => rfl
  | programCounter => rfl
  | highByte e | lowByte e => by simp only [shifted, evaluate, evaluate_shifted lookup pc δ e]
  | chain first rest => by
    simp only [shifted, evaluate, evaluate_shifted lookup pc δ first,
      evaluateRest_shiftedRest lookup pc δ rest]

theorem evaluateRest_shiftedRest (lookup : Symbol → Option Value) (pc δ : Value) :
    ∀ (rest : List (Operator × Expr)) (v : Value),
      evaluateRest ⟨lookup, pc⟩ v (shiftedRest δ rest) = evaluateRest ⟨lookup, pc + δ⟩ v rest
  | [], v => rfl
  | (op, e) :: rest, v => by
    simp only [shiftedRest, evaluateRest, evaluate_shifted lookup pc δ e,
      evaluateRest_shiftedRest lookup pc δ rest]

end

end Expr

/-! ## Slopes -/

/-- How much the result of an operator grows with the program counter, from how much the operands
do. Only sums and differences can be told for operands that grow. -/
def Operator.slope? (k j : Value) : Operator → Option Value
  | add => some (k + j)
  | subtract => some (k - j)
  | _ => if k = 0 ∧ j = 0 then some 0 else none

namespace Expr

mutual

/-- How much the value grows with the program counter, where that is only added and subtracted. -/
def slope? : Expr → Option Value
  | constant _ => some 0
  | symbol _ => some 0
  | programCounter => some 1
  | highByte e => if slope? e = some 0 then some 0 else none
  | lowByte e => if slope? e = some 0 then some 0 else none
  | chain first rest => (slope? first).bind fun k => slopeRest? k rest

/-- How much the value of a chain grows, from how much the value reached so far does. -/
def slopeRest? (k : Value) : List (Operator × Expr) → Option Value
  | [] => some k
  | (op, e) :: rest => (slope? e).bind fun j => (op.slope? k j).bind fun i => slopeRest? i rest

end

end Expr

theorem Operator.apply_slope {op : Operator} {k j i : Value} (h : op.slope? k j = some i)
    (a b δ : Value) :
    op.apply (a + k * δ) (b + j * δ) = (op.apply a b).map (· + i * δ) := by
  cases op with
  | add =>
    obtain rfl : k + j = i := by simpa [Operator.slope?] using h
    have hsum : a + k * δ + (b + j * δ) = a + b + (k + j) * δ := by grind
    simp only [Operator.apply, Except.map, hsum]
  | subtract =>
    obtain rfl : k - j = i := by simpa [Operator.slope?] using h
    have hdifference : a + k * δ - (b + j * δ) = a - b + (k - j) * δ := by grind
    simp only [Operator.apply, Except.map, hdifference]
  | multiply | divide | and | or | xor =>
    -- The operands do not move, so neither does the result.
    obtain ⟨⟨rfl, rfl⟩, rfl⟩ : (k = 0 ∧ j = 0) ∧ 0 = i := by simpa [Operator.slope?] using h
    cases hv : Operator.apply _ a b <;> simp [hv, Except.map]

namespace Expr

mutual

/-- **An expression with a slope** moves with the program counter by its slope. -/
theorem evaluate_slope (lookup : Symbol → Option Value) (pc δ : Value) : ∀ (e : Expr) {k : Value},
    e.slope? = some k →
      e.evaluate ⟨lookup, pc + δ⟩ = (e.evaluate ⟨lookup, pc⟩).map (· + k * δ)
  | constant v, k, h => by
    obtain rfl : 0 = k := by simpa [slope?] using h
    simp [evaluate, Except.map]
  | symbol s, k, h => by
    obtain rfl : 0 = k := by simpa [slope?] using h
    cases hs : lookup s <;> simp [evaluate, hs, Except.map]
  | programCounter, k, h => by
    obtain rfl : 1 = k := by simpa [slope?] using h
    simp [evaluate, Except.map]
  | highByte e, k, h | lowByte e, k, h => by
    obtain ⟨he, rfl⟩ : e.slope? = some 0 ∧ 0 = k := by simpa [slope?] using h
    rw [evaluate, evaluate, evaluate_slope lookup pc δ e he]
    cases e.evaluate ⟨lookup, pc⟩ <;> simp [bind, Except.bind, Except.map, pure, Except.pure]
  | chain first rest, k, h => by
    obtain ⟨j, hfirst, hrest⟩ := Option.bind_eq_some_iff.mp (by simpa only [slope?] using h)
    rw [evaluate, evaluate, evaluate_slope lookup pc δ first hfirst]
    -- The value reached so far has moved already, by as much as the slope up to there says.
    cases hv : first.evaluate ⟨lookup, pc⟩ with
    | error err => rfl
    | ok v => exact evaluateRest_slope lookup pc δ rest hrest v

theorem evaluateRest_slope (lookup : Symbol → Option Value) (pc δ : Value) :
    ∀ (rest : List (Operator × Expr)) {k i : Value}, slopeRest? k rest = some i → ∀ v : Value,
      evaluateRest ⟨lookup, pc + δ⟩ (v + k * δ) rest =
        (evaluateRest ⟨lookup, pc⟩ v rest).map (· + i * δ)
  | [], k, i, h, v => by
    obtain rfl : k = i := by simpa [slopeRest?] using h
    rfl
  | (op, e) :: rest, k, i, h, v => by
    simp only [slopeRest?] at h
    obtain ⟨j, he, h⟩ := Option.bind_eq_some_iff.mp h
    obtain ⟨n, hop, hrest⟩ := Option.bind_eq_some_iff.mp h
    rw [evaluateRest, evaluateRest, evaluate_slope lookup pc δ e he]
    -- What fails at one address fails at the other for the same reason.
    cases hw : e.evaluate ⟨lookup, pc⟩ with
    | error err => rfl
    | ok w =>
      simp only [Except.map, bind, Except.bind, Operator.apply_slope hop v w δ]
      cases hu : op.apply v w with
      | error err => rfl
      | ok u => exact evaluateRest_slope lookup pc δ rest hrest u

end

end Expr

/-! ## The jump in the place of a branch -/

/-- Away from the end of the range a saturating sum is the sum. -/
theorem Value.saturatingAdd_two {v : Value} (h : v.toInt + 2 ≤ Int64.maxValue.toInt) :
    Value.saturatingAdd v 2 = v + 2 := by
  have hlow : Int64.minValue.toInt ≤ v.toInt := v.minValue_le_toInt
  have htwo : (2 : Value).toInt = 2 := rfl
  rw [Value.saturatingAdd, Value.clamp, htwo, if_neg (by omega), if_neg (by omega),
    Int64.ofInt_add, Int64.ofInt_toInt]
  rfl

namespace Pass

/-- **Where the jump in the place of a branch goes.** A branch that becomes a sequence becomes the
opposite branch and a jump with the same operand. The jump stands behind the opposite branch, two
bytes on, and its operand has the value there that the target of the branch would have with every
mention of the program counter raised by as much. If the target has a slope, then the jump goes to
the target of the branch exactly if the slope does not move it. -/
theorem target_of_extended (s : Sweep Unit) (id : Nat) (st : Statement) (number : Nat)
    (location : Location) (children : List Node)
    (h : (extendBranches s id st).2 = .sequence number location children) :
    ∃ m inverse target δ, st.item.branch? = some (m, target) ∧ m.inverse? = some inverse ∧
      children = [.leaf s.size (inPlace st (skippingBranch inverse)),
        .leaf (s.size + 1) (inPlace st (jumpTo target))] ∧
      (s.context.env.follow (.instruction (skippingBranch inverse))).pc =
        s.context.env.pc + δ ∧
      (s.context.env.pc.toInt + 2 ≤ Int64.maxValue.toInt → δ = 2) ∧
      ∀ lookup : Symbol → Option Value,
        target.evaluate ⟨lookup, s.context.env.pc + δ⟩ =
            (target.shifted δ).evaluate ⟨lookup, s.context.env.pc⟩ ∧
          ∀ k v, target.slope? = some k →
            target.evaluate ⟨lookup, s.context.env.pc⟩ = .ok v →
              target.evaluate ⟨lookup, s.context.env.pc + δ⟩ = .ok (v + k * δ) ∧
                (target.evaluate ⟨lookup, s.context.env.pc + δ⟩ = .ok v ↔ k * δ = 0) := by
  obtain ⟨m, inverse, target, hb, hinv, hfar⟩ := conditional_of_sequence h
  rw [(extendBranches_conditional hb hinv hfar).1] at h
  obtain ⟨-, -, rfl⟩ := Node.sequence.inj h
  refine ⟨m, inverse, target, Value.saturatingAdd s.context.env.pc 2 - s.context.env.pc, hb, hinv,
    rfl, ?_, fun hp => ?_, fun lookup => ⟨(Expr.evaluate_shifted lookup _ _ target).symm, ?_⟩⟩
  · have hpc : (s.context.env.follow (.instruction (skippingBranch inverse))).pc =
        Value.saturatingAdd s.context.env.pc 2 := rfl
    rw [hpc]
    grind
  · rw [Value.saturatingAdd_two hp]
    grind
  · intro k v hslope hv
    have hmoved := Expr.evaluate_slope lookup s.context.env.pc
      (Value.saturatingAdd s.context.env.pc 2 - s.context.env.pc) target hslope
    rw [hv] at hmoved
    refine ⟨hmoved, ?_⟩
    rw [hmoved]
    simp only [Except.map, Except.ok.injEq]
    constructor
    · intro heq
      grind
    · intro heq
      grind

/-- A branch 200 bytes on from its own address becomes a jump 200 bytes on from the address of the
jump, which is two bytes too far. -/
theorem target_of_extended_pcPlus :
    (extendBranches ⟨{ cpu := .mos6502 }, 1, false, ()⟩ 0
        ⟨.topLevel, .instruction (.resolved .beq .relative (.pcPlus 200))⟩).2 =
      .sequence 0 .topLevel [.leaf 1 ⟨.topLevel, .instruction (skippingBranch .bne)⟩,
        .leaf 2 ⟨.topLevel, .instruction (jumpTo (.pcPlus 200))⟩] ∧
      ∀ lookup, (Expr.pcPlus 200).evaluate ⟨lookup, 0⟩ = .ok 200 ∧
        (Expr.pcPlus 200).evaluate ⟨lookup, 2⟩ = .ok 202 := by
  have hnode := (@extendBranches_conditional ⟨{ cpu := .mos6502 }, 1, false, ()⟩ 0
    ⟨.topLevel, .instruction (.resolved .beq .relative (.pcPlus 200))⟩ _ _ _ rfl rfl
    (by unfold Sweep.Reaches; decide)).1
  obtain ⟨m, inverse, target, δ, hb, -, -, -, hδ, hvalue⟩ :=
    target_of_extended _ _ _ _ _ _ hnode
  obtain ⟨rfl, rfl⟩ : Mnemonic.beq = m ∧ Expr.pcPlus 200 = target :=
    Prod.mk.inj (Option.some.inj hb)
  obtain rfl : δ = 2 := hδ (by decide)
  exact ⟨hnode, fun lookup => ⟨rfl, ((hvalue lookup).2 1 200 rfl rfl).1⟩⟩

example : (Assembly.ofProgram {} (Program.mk [.leaf 1 ⟨.topLevel,
    .instruction (.pending .beq .memory (.pcPlus 200))⟩] 2) {}).image.bytes =
      #[0xd0, 3, 0x4c, 202, 0] := by
  decide +kernel

end Pass
end Assembler6502
