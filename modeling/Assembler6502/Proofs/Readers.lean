import Assembler6502.Proofs.Written

/-!
# What is found in tokens

A property of the tokens of a text is a property of the next token, wherever the scanner stands. And
a property of the expressions that are read from such tokens is a property of names, anonymous
labels, numerals and the program counter that the selection of a byte and the chains of operations
keep, where the operations of one chain bind equally tight.

## Main definitions

* `Precedence`: how tight operators bind
* `Expr.Found`: a property of the expressions that are read from tokens with a property

## Main results

* `Token.forall_scan`: the tokens of a text
* `Expr.Found.read`: the expressions that are read
-/

namespace Assembler6502

/-- What holds of the next token, wherever the scanner stands, holds of all tokens of a text. -/
theorem Token.forall_scan {T : Scanned → Prop} (h : ∀ c : Cursor, T c.next) (text : List Char) :
    ∀ s ∈ Token.scan text, T s := by
  have hfrom : ∀ fuel c, ∀ s ∈ scanFrom fuel c, T s := by
    intro fuel
    induction fuel with
    | zero => simp [scanFrom]
    | succ fuel ih =>
      intro c s hs
      unfold scanFrom at hs
      dsimp only at hs
      split at hs
      · rw [List.mem_singleton.mp hs]
        exact h c
      · rcases List.mem_cons.mp hs with rfl | hs
        · exact h c
        · exact ih _ s hs
  exact hfrom _ _

/-! ## Operators -/

/-- How tight an operator binds. -/
inductive Precedence where
  | bitwise
  | additive
  | multiplicative
  deriving DecidableEq, Repr

def Operator.precedence : Operator → Precedence
  | and | or | xor => .bitwise
  | add | subtract => .additive
  | multiply | divide => .multiplicative

/-- The operators that bind equally tight. -/
def Precedence.level : Precedence → Expr.Level
  | bitwise => Expr.bitwise
  | additive => Expr.additive
  | multiplicative => Expr.multiplicative

theorem Precedence.precedence_of_level {p : Precedence} {mark : Punctuation} {op : Operator}
    (h : p.level mark = some op) : op.precedence = p := by
  cases p <;> cases mark <;> cases h <;> rfl

/-! ## Expressions -/

namespace Expr

variable {T : Token → Prop} {P : Expr → Prop}

/-- A property of the expressions that are read from tokens with a property. -/
structure Found (T : Token → Prop) (P : Expr → Prop) : Prop where
  name : ∀ t name, T t → t.lexeme = .identifier name → P (.symbol (.ofText name))
  anonymous : ∀ index, P (.symbol (anonymousLabel index))
  programCounter : P .programCounter
  number : ∀ (l : Lexeme) v, l.value = .ok v → P (.constant v)
  highByte : ∀ e, P e → P (.highByte e)
  lowByte : ∀ e, P e → P (.lowByte e)
  chain : ∀ (p : Precedence) first rest, P first → rest ≠ [] →
    (∀ x ∈ rest, x.1.precedence = p ∧ P x.2) → P (.chain first rest)

/-- A reader that finds expressions with a property, and leaves tokens that were there. -/
def Reader.Finds (T : Token → Prop) (P : Expr → Prop) (read : Reader Expr) : Prop :=
  ∀ ts, (∀ t ∈ ts, T t) → Yields (fun x => P x.1 ∧ ∀ t ∈ x.2, T t) (read ts)

variable {ts : List Token} {operand : Reader Expr}

theorem yields_expectMark {mark : Punctuation} {what : String} (hts : ∀ t ∈ ts, T t) :
    Yields (fun ts => ∀ t ∈ ts, T t) (Token.expectMark mark what ts) := by
  unfold Token.expectMark
  split
  · exact .pure fun t ht => hts t (List.mem_of_mem_tail ht)
  · exact .error _

theorem level_of_leadingOperator? {level : Level} {op : Operator}
    (h : leadingOperator? level ts = some op) : ∃ mark, level mark = some op := by
  unfold leadingOperator? at h
  split at h
  · exact ⟨_, h⟩
  · cases h

theorem yields_readOperations (hoperand : operand.Finds T P) (p : Precedence) (fuel : Nat)
    (hts : ∀ t ∈ ts, T t) :
    Yields (fun x => (∀ y ∈ x.1, y.1.precedence = p ∧ P y.2) ∧ ∀ t ∈ x.2, T t)
      (readOperations p.level operand fuel ts) := by
  induction fuel generalizing ts with
  | zero => exact .pure ⟨by simp, hts⟩
  | succ fuel ih =>
    unfold readOperations
    split
    · exact .pure ⟨by simp, hts⟩
    · rename_i op hop
      -- The operators of one level bind equally tight.
      obtain ⟨mark, hmark⟩ := level_of_leadingOperator? hop
      have htail : ∀ t ∈ ts.tail, T t := fun t ht => hts t (List.mem_of_mem_tail ht)
      refine .bind_of (hoperand _ htail) fun ⟨e, ts⟩ ⟨he, hts⟩ => ?_
      refine .bind_of (ih hts) fun ⟨rest, ts⟩ ⟨hrest, hts⟩ => .pure ⟨?_, hts⟩
      exact List.forall_mem_cons.mpr ⟨⟨Precedence.precedence_of_level hmark, he⟩, hrest⟩

namespace Found

variable (h : Found T P)
include h

theorem readLevel (p : Precedence) (hoperand : operand.Finds T P) :
    Reader.Finds T P (Expr.readLevel p.level operand) := by
  intro ts hts
  refine .bind_of (hoperand ts hts) fun ⟨first, ts⟩ ⟨hfirst, hts⟩ => ?_
  refine .bind_of (yields_readOperations hoperand p _ hts) fun ⟨rest, ts⟩ ⟨hrest, hts⟩ => ?_
  refine .pure ⟨?_, hts⟩
  unfold chained
  split
  · exact hfirst
  · rename_i hne
    exact h.chain p first rest hfirst (by simpa using hne) hrest

theorem readLevels (hoperand : operand.Finds T P) :
    Reader.Finds T P (Expr.readLevels operand) :=
  h.readLevel .bitwise (h.readLevel .additive (h.readLevel .multiplicative hoperand))

theorem readAtom (count depth : Nat) : Reader.Finds T P (Expr.readAtom count depth) := by
  induction depth with
  | zero => exact fun ts _ => .error _
  | succ depth ih =>
    intro ts hts
    unfold Expr.readAtom
    split
    · exact .error _
    · rename_i t rest
      have hrest : ∀ t ∈ rest, T t := fun t ht => hts t (List.mem_cons_of_mem _ ht)
      -- The cases are names, the program counter, brackets, two kinds of anonymous labels, the high
      -- and the low byte, and numerals.
      split
      · rename_i name hname
        exact .pure ⟨h.name t name (hts t List.mem_cons_self) hname, hrest⟩
      · exact .pure ⟨h.programCounter, hrest⟩
      · refine .bind_of (h.readLevels ih rest hrest) fun x hx => ?_
        exact .bind_of (yields_expectMark hx.2) fun ts hts => .pure ⟨hx.1, hts⟩
      · exact .pure ⟨h.anonymous _, fun u hu => hts u (List.dropWhile_sublist _ |>.mem hu)⟩
      · exact .pure ⟨h.anonymous _, fun u hu => hts u (List.dropWhile_sublist _ |>.mem hu)⟩
      · exact .bind_of (ih rest hrest) fun x hx => .pure ⟨h.highByte x.1 hx.1, hx.2⟩
      · exact .bind_of (ih rest hrest) fun x hx => .pure ⟨h.lowByte x.1 hx.1, hx.2⟩
      · split
        · exact .bind_of (Q := fun v => t.lexeme.value = .ok v) (fun v hv => hv) fun v hv =>
            .pure ⟨h.number _ v hv, hrest⟩
        · exact .error _

/-- **The expressions that are read** from tokens with a property. -/
theorem read (count : Nat) : Reader.Finds T P (Expr.read count) := fun ts =>
  h.readLevels (h.readAtom count ts.length) ts

end Found

end Expr
end Assembler6502
