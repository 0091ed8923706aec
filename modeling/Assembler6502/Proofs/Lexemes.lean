import Assembler6502.Proofs.Names

/-!
# Lines are read by their lexemes

A token is a lexeme at a position. What a line says depends on the lexemes of its tokens and not on
their positions: lines with the same lexemes have the same labels and the same phrase, or are
refused for the same reason. Positions only matter to where a fault is reported.

## Main definitions

* `Token.Same`: tokens with the same lexemes
* `Agree`: two attempts fail for the same reason or succeed with related results

## Main results

* `Expr.positionless_read`: expressions are read by their lexemes
* `Source.takeLabels_of_same`, `Source.readPhrase_of_same`: so are labels and phrases
-/

namespace Assembler6502

/-! ## Tokens with the same lexemes -/

/-- Tokens with the same lexemes. -/
def Token.Same (ts ts' : List Token) : Prop :=
  ts.map (·.lexeme) = ts'.map (·.lexeme)

namespace Token.Same

variable {ts ts' rest rest' : List Token}

theorem refl (ts : List Token) : Same ts ts := rfl

theorem symm (h : Same ts ts') : Same ts' ts := Eq.symm h

theorem nil : Same [] [] := rfl

theorem cons (l : Lexeme) (p p' : Position) (h : Same rest rest') :
    Same (⟨l, p⟩ :: rest) (⟨l, p'⟩ :: rest') :=
  congrArg (l :: ·) h

theorem exists_cons {l : Lexeme} {p : Position} (h : Same (⟨l, p⟩ :: rest) ts') :
    ∃ p' rest', ts' = ⟨l, p'⟩ :: rest' ∧ Same rest rest' := by
  obtain ⟨⟨l', p'⟩, rest', rfl, hl, hrest⟩ := List.map_eq_cons_iff.mp h.symm
  obtain rfl : l' = l := hl
  exact ⟨p', rest', rfl, Eq.symm hrest⟩

/-- There is no token on either side, or there are tokens with one lexeme in front. -/
theorem nil_or_cons (h : Same ts ts') : (ts = [] ∧ ts' = []) ∨ ∃ l p p' rest rest',
    ts = ⟨l, p⟩ :: rest ∧ ts' = ⟨l, p'⟩ :: rest' ∧ Same rest rest' := by
  cases ts with
  | nil => exact .inl ⟨rfl, List.map_eq_nil_iff.mp h.symm⟩
  | cons t rest =>
    obtain ⟨p', rest', rfl, hrest⟩ := h.exists_cons
    exact .inr ⟨t.lexeme, t.position, p', rest, rest', rfl, rfl, hrest⟩

theorem length (h : Same ts ts') : ts.length = ts'.length := by
  have hlength := congrArg List.length h
  rwa [List.length_map, List.length_map] at hlength

theorem first (h : Same ts ts') : Token.first ts = Token.first ts' := by
  rcases h.nil_or_cons with ⟨rfl, rfl⟩ | ⟨l, p, p', rest, rest', rfl, rfl, -⟩
  · rfl
  · rfl

theorem tail (h : Same ts ts') : Same ts.tail ts'.tail := by
  rcases h.nil_or_cons with ⟨rfl, rfl⟩ | ⟨l, p, p', rest, rest', rfl, rfl, hrest⟩
  · exact .nil
  · exact hrest

theorem unexpected (h : Same ts ts') (what : String) :
    ParseError.unexpected what ts = ParseError.unexpected what ts' := by
  rw [ParseError.unexpected, h.first, ParseError.unexpected]

/-- What is taken and dropped while tokens are a mark depends on the lexemes. -/
theorem signs (h : Same ts ts') (mark : Punctuation) :
    (ts.takeWhile (Expr.isMark mark)).length = (ts'.takeWhile (Expr.isMark mark)).length ∧
      Same (ts.dropWhile (Expr.isMark mark)) (ts'.dropWhile (Expr.isMark mark)) := by
  induction ts generalizing ts' with
  | nil =>
    rcases h.nil_or_cons with ⟨-, rfl⟩ | ⟨l, p, p', rest, rest', hcons, -⟩
    · exact ⟨rfl, .nil⟩
    · cases hcons
  | cons t ts ih =>
    rcases h.nil_or_cons with ⟨hnil, -⟩ | ⟨l, p, p', rest, rest', hcons, rfl, hrest⟩
    · cases hnil
    · obtain ⟨rfl, rfl⟩ := List.cons.inj hcons
      obtain ⟨htake, hdrop⟩ := ih hrest
      by_cases hl : l = .mark mark
      · simp [Expr.isMark, hl] at htake hdrop ⊢
        exact ⟨htake, hdrop⟩
      · simp only [Expr.isMark, hl, decide_false, List.takeWhile_cons, List.dropWhile_cons]
        exact ⟨rfl, .cons l p p' hrest⟩

end Token.Same

/-! ## Attempts that agree -/

/-- Two attempts fail for the same reason, or succeed with related results. -/
inductive Agree {ε α : Type} (S : α → α → Prop) : Except ε α → Except ε α → Prop
  | ok {a a' : α} (h : S a a') : Agree S (.ok a) (.ok a')
  | error (e : ε) : Agree S (.error e) (.error e)

/-- The same result in front of tokens with the same lexemes. -/
inductive Source.Alike {α : Type} : α × List Token → α × List Token → Prop
  | intro (a : α) {ts ts' : List Token} (h : Token.Same ts ts') : Source.Alike (a, ts) (a, ts')

namespace Agree

variable {ε α β : Type} {S : α → α → Prop} {T : β → β → Prop}

theorem bind {x x' : Except ε α} {f f' : α → Except ε β} (hx : Agree S x x')
    (hf : ∀ a a', S a a' → Agree T (f a) (f' a')) : Agree T (x >>= f) (x' >>= f') := by
  cases hx with
  | ok h => exact hf _ _ h
  | error e => exact .error e

theorem read {x x' : Except ε (α × List Token)} {f f' : α × List Token → Except ε β}
    (hx : Agree Source.Alike x x')
    (hf : ∀ a {ts ts'}, Token.Same ts ts' → Agree T (f (a, ts)) (f' (a, ts'))) :
    Agree T (x >>= f) (x' >>= f') :=
  hx.bind fun _ _ ⟨a, h⟩ => hf a h

theorem check {x x' : Except ε (List Token)} {f f' : List Token → Except ε β}
    (hx : Agree Token.Same x x')
    (hf : ∀ {ts ts'}, Token.Same ts ts' → Agree T (f ts) (f' ts')) :
    Agree T (x >>= f) (x' >>= f') :=
  hx.bind fun _ _ h => hf h

theorem eq {x x' : Except ε α} (h : Agree Eq x x') : x = x' := by
  cases h with
  | ok h => rw [h]
  | error e => rfl

theorem of_eq {x x' : Except ε α} (h : x = x') : Agree Eq x x' := by
  subst h
  cases x with
  | ok a => exact .ok rfl
  | error e => exact .error e

theorem same {x : Except ε α} {f f' : α → Except ε β} (hf : ∀ a, Agree T (f a) (f' a)) :
    Agree T (x >>= f) (x >>= f') :=
  (of_eq rfl).bind fun a _ h => h ▸ hf a

theorem ite {p : Prop} [Decidable p] {x x' y y' : Except ε α} (hx : Agree S x x')
    (hy : Agree S y y') : Agree S (if p then x else y) (if p then x' else y') := by
  split
  · exact hx
  · exact hy

end Agree

theorem Token.expectMark_of_same {ts ts' : List Token} (h : Token.Same ts ts')
    (mark : Punctuation) (what : String) :
    Agree Token.Same (Token.expectMark mark what ts) (Token.expectMark mark what ts') := by
  simp only [Token.expectMark, h.first, h.unexpected]
  exact .ite (.ok h.tail) (.error _)

/-! ## Expressions -/

namespace Expr

/-- A reader that looks at lexemes only. -/
def Reader.Positionless {α : Type} (read : Reader α) : Prop :=
  ∀ ⦃ts ts' : List Token⦄, Token.Same ts ts' → Agree Source.Alike (read ts) (read ts')

variable {ts ts' : List Token} {level : Level} {operand : Reader Expr}

theorem leadingOperator?_of_same (h : Token.Same ts ts') :
    leadingOperator? level ts = leadingOperator? level ts' := by
  rcases h.nil_or_cons with ⟨rfl, rfl⟩ | ⟨l, p, p', rest, rest', rfl, rfl, -⟩
  · rfl
  · cases l <;> rfl

theorem positionless_readOperations (hoperand : operand.Positionless) (fuel : Nat) :
    Reader.Positionless (readOperations level operand fuel) := by
  induction fuel with
  | zero => exact fun ts ts' h => .ok ⟨[], h⟩
  | succ fuel ih =>
    intro ts ts' h
    simp only [readOperations, ← leadingOperator?_of_same h]
    cases leadingOperator? level ts with
    | none => exact .ok ⟨[], h⟩
    | some op =>
      exact .read (hoperand h.tail) fun e _ _ h => .read (ih h) fun rest _ _ h => .ok ⟨_, h⟩

theorem positionless_readLevel (hoperand : operand.Positionless) :
    Reader.Positionless (readLevel level operand) := by
  intro ts ts' h
  refine .read (hoperand h) fun first ts ts' h => ?_
  -- As many operations are allowed as there are tokens.
  dsimp only
  rw [h.length]
  exact .read (positionless_readOperations hoperand _ h) fun rest _ _ h => .ok ⟨_, h⟩

theorem positionless_readLevels (hatom : operand.Positionless) :
    Reader.Positionless (readLevels operand) :=
  positionless_readLevel (positionless_readLevel (positionless_readLevel hatom))

theorem positionless_readAtom (count depth : Nat) : Reader.Positionless (readAtom count depth) := by
  induction depth with
  | zero =>
    intro ts ts' h
    simp only [readAtom, h.first]
    exact .error _
  | succ depth ih =>
    intro ts ts' h
    have hplus := h.signs .plus
    have hminus := h.signs .minus
    rcases h.nil_or_cons with ⟨rfl, rfl⟩ | ⟨l, p, p', rest, rest', rfl, rfl, hrest⟩
    · exact .error _
    · -- Numerals differ in how their values are found, and leave the same tokens.
      have hnumber : Agree Source.Alike
          (l.value >>= fun v => pure (Expr.constant v, rest))
          (l.value >>= fun v => pure (Expr.constant v, rest')) := .same fun v => .ok ⟨_, hrest⟩
      cases l with
      | identifier name => exact .ok ⟨_, hrest⟩
      | mark q =>
        cases q with
        | caret => exact .ok ⟨_, hrest⟩
        | bracketLeft =>
          exact .read (positionless_readLevels ih hrest) fun e _ _ h =>
            .check (Token.expectMark_of_same h _ _) fun h => .ok ⟨e, h⟩
        | plus =>
          simp only [readAtom, hplus.1]
          exact .ok ⟨_, hplus.2⟩
        | minus =>
          simp only [readAtom, hminus.1]
          exact .ok ⟨_, hminus.2⟩
        | greaterThan | lessThan => exact .read (ih hrest) fun e _ _ h => .ok ⟨_, h⟩
        | _ => exact .error _
      | string _ | endOfLine | endOfFile => exact .error _
      | _ => exact hnumber

/-- **Expressions are read by their lexemes.** -/
theorem positionless_read (count : Nat) : Reader.Positionless (read count) := by
  intro ts ts' h
  rw [read, read, h.length]
  exact positionless_readLevels (positionless_readAtom count _) h

end Expr

/-! ## Phrases -/

namespace Source

open Assembler6502.Expr (Reader)

variable {ts ts' : List Token}

theorem positionless_readIdentifier (what : String) :
    Reader.Positionless (readIdentifier what) := by
  intro ts ts' h
  simp only [readIdentifier, h.first, h.unexpected]
  split
  · exact .ok ⟨_, h.tail⟩
  · exact .error _

theorem positionless_readString : Reader.Positionless readString := by
  intro ts ts' h
  simp only [readString, h.first, h.unexpected]
  split
  · exact .ok ⟨_, h.tail⟩
  · exact .error _

theorem expectRegister_of_same (h : Token.Same ts ts') (register : String) :
    Agree Token.Same (expectRegister register ts) (expectRegister register ts') := by
  simp only [expectRegister, h.first, h.unexpected]
  exact .ite (.ok h.tail) (.error _)

theorem expectEnd_of_same (h : Token.Same ts ts') : expectEnd ts = expectEnd ts' := by
  rw [expectEnd, expectEnd, h.first, h.unexpected]

theorem atComma_of_same (h : Token.Same ts ts') : atComma ts = atComma ts' := by
  rw [atComma, atComma, h.first]

theorem agree_end {β : Type} {T : β → β → Prop} {b b' : β} (h : Token.Same ts ts') (hb : T b b') :
    Agree T (do expectEnd ts; return b) (do expectEnd ts'; return b') := by
  rw [expectEnd_of_same h]
  exact .same fun _ => .ok hb

namespace Setting

variable {g : Setting}

theorem readSingle_of_same (h : Token.Same ts ts') :
    Agree Eq (g.readSingle ts) (g.readSingle ts') :=
  .read (Expr.positionless_read _ h) fun _ _ _ h => agree_end h rfl

theorem positionless_readValue (translate : Bool) :
    Reader.Positionless (g.readValue translate) := by
  intro ts ts' h
  simp only [readValue, h.first]
  split
  · exact .ok ⟨_, h.tail⟩
  · exact .read (Expr.positionless_read g.count h) fun e _ _ h => .ok ⟨_, h⟩

theorem readValuesFrom_of_same (translate : Bool) (fuel : Nat) :
    ∀ {ts ts' : List Token}, Token.Same ts ts' →
      Agree Eq (g.readValuesFrom translate fuel ts) (g.readValuesFrom translate fuel ts') := by
  induction fuel with
  | zero =>
    intro ts ts' h
    simp only [readValuesFrom, h.unexpected]
    exact .error _
  | succ fuel ih =>
    intro ts ts' h
    refine .read (positionless_readValue translate h) fun values ts ts' h => ?_
    dsimp only
    rw [atComma_of_same h]
    refine .ite (.bind (ih h.tail) fun rest _ hrest => ?_) (agree_end h rfl)
    rw [hrest]
    exact .ok rfl

theorem readValues_of_same (translate : Bool) (h : Token.Same ts ts') :
    Agree Eq (g.readValues translate ts) (g.readValues translate ts') := by
  rw [readValues, readValues, h.length]
  exact readValuesFrom_of_same translate _ h

theorem positionless_readMnemonic : Reader.Positionless g.readMnemonic := by
  intro ts ts' h
  refine .read (positionless_readIdentifier _ h) fun name ts ts' h => ?_
  dsimp only
  cases (Mnemonic.ofText? name.toList).filter g.cpu.hasMnemonic with
  | some m => exact .ok ⟨m, h⟩
  | none => exact .error _

theorem positionless_readPointerShape : Reader.Positionless readPointerShape := by
  intro ts ts' h
  simp only [readPointerShape, atComma_of_same h]
  refine .ite ?_ ?_
  · exact .check (expectRegister_of_same h.tail _) fun h =>
      .check (Token.expectMark_of_same h _ _) fun h => .ok ⟨_, h⟩
  · refine .check (Token.expectMark_of_same h _ _) fun {ts ts'} h => ?_
    rw [atComma_of_same h]
    exact .ite (.check (expectRegister_of_same h.tail _) fun h => .ok ⟨_, h⟩) (.ok ⟨_, h⟩)

theorem positionless_readMemoryShape : Reader.Positionless readMemoryShape := by
  intro ts ts' h
  simp only [readMemoryShape, atComma_of_same h, h.tail.first, h.tail.unexpected]
  exact .ite (.ite (.ok ⟨_, h.tail.tail⟩) (.ite (.ok ⟨_, h.tail.tail⟩) (.error _))) (.ok ⟨_, h⟩)

theorem readInstruction_of_same (h : Token.Same ts ts') :
    Agree Eq (g.readInstruction ts) (g.readInstruction ts') := by
  refine .read (positionless_readMnemonic h) fun m ts ts' h => ?_
  dsimp only
  rw [← h.first]
  split
  · exact .ok rfl
  · exact .ok rfl
  · exact .read (Expr.positionless_read _ h.tail) fun e _ _ h => agree_end h rfl
  · exact .read (Expr.positionless_read _ h.tail) fun e _ _ h =>
      .read (positionless_readPointerShape h) fun shape _ _ h => agree_end h rfl
  · exact .read (Expr.positionless_read _ h) fun e _ _ h =>
      .read (positionless_readMemoryShape h) fun shape _ _ h => agree_end h rfl

theorem readInvoke_of_same (h : Token.Same ts ts') :
    Agree Eq (g.readInvoke ts) (g.readInvoke ts') := by
  refine .read (positionless_readIdentifier _ h) fun name ts ts' h => ?_
  dsimp only
  rw [h.first]
  exact .ite (.ok rfl) (.bind (readValues_of_same true h) fun _ _ hv => .ok (by rw [hv]))

theorem readSegment_of_same (h : Token.Same ts ts') (default : String) :
    Agree Eq (readSegment default ts) (readSegment default ts') := by
  simp only [readSegment, h.first]
  split
  · exact agree_end h.tail rfl
  · exact agree_end h rfl

theorem readAdvance_of_same (h : Token.Same ts ts') :
    Agree Eq (g.readAdvance ts) (g.readAdvance ts') := by
  refine .read (Expr.positionless_read _ h) fun target ts ts' h => ?_
  dsimp only
  rw [atComma_of_same h]
  exact .ite (.read (Expr.positionless_read _ h.tail) fun fill _ _ h => agree_end h rfl)
    (agree_end h rfl)

theorem readReserve_of_same (h : Token.Same ts ts') :
    Agree Eq (readReserve ts) (readReserve ts') := by
  refine .read (positionless_readIdentifier _ h) fun name ts ts' h => ?_
  dsimp only
  rw [h.first, h.unexpected]
  exact .ite (.same fun size => agree_end h.tail rfl) (.error _)

theorem readIncbin_of_same (h : Token.Same ts ts') :
    Agree Eq (g.readIncbin ts) (g.readIncbin ts') := by
  refine .read (positionless_readString h) fun name ts ts' h => ?_
  dsimp only
  rw [atComma_of_same h]
  refine .ite (.read (Expr.positionless_read _ h.tail) fun offset ts ts' h => ?_) (agree_end h rfl)
  dsimp only
  rw [atComma_of_same h]
  exact .ite (.read (Expr.positionless_read _ h.tail) fun length _ _ h => agree_end h rfl)
    (agree_end h rfl)

theorem readFileName_of_same (h : Token.Same ts ts') :
    Agree Eq (readFileName ts) (readFileName ts') :=
  .read (positionless_readString h) fun _ _ _ h => agree_end h rfl

theorem readCharmap_of_same (h : Token.Same ts ts') :
    Agree Eq (g.readCharmap ts) (g.readCharmap ts') := by
  simp only [readCharmap, h.first]
  exact .ite (.ok rfl) (.bind (readValues_of_same false h) fun _ _ hv => .ok (by rw [hv]))

theorem readDirective_of_same (name : String) (h : Token.Same ts ts') :
    Agree Eq (g.readDirective name ts) (g.readDirective name ts') := by
  -- A directive with one argument wraps what is read in the same phrase.
  have hwrap {α : Type} {x x' : Except ParseError α} (f : α → Phrase) (hx : Agree Eq x x') :
      Agree Eq (do return f (← x)) (do return f (← x')) :=
    hx.bind fun _ _ h => .ok (congrArg f h)
  have hend (phrase : Phrase) : Agree Eq (do expectEnd ts; return phrase)
      (do expectEnd ts'; return phrase) := agree_end h rfl
  simp only [readDirective]
  split
  · exact hwrap _ (readFileName_of_same h)
  · exact hwrap _ (readFileName_of_same h)
  · exact hwrap _ (readFileName_of_same h)
  · exact readIncbin_of_same h
  · exact readCharmap_of_same h
  · exact hwrap _ (readFileName_of_same h)
  · exact hwrap _ (readInvoke_of_same h)
  · exact hwrap _ (readSingle_of_same h)
  · exact hwrap _ (readSingle_of_same h)
  · exact hwrap _ (readAdvance_of_same h)
  · exact .read (positionless_readIdentifier _ h) fun name _ _ h =>
      (readSingle_of_same h).bind fun _ _ he => .ok (by rw [he])
  · exact readReserve_of_same h
  · exact hwrap _ (readSegment_of_same h _)
  · exact hwrap _ (readSegment_of_same h _)
  · exact hwrap _ (readValues_of_same true h)
  · exact hwrap _ (readValues_of_same true h)
  · exact hwrap _ (readValues_of_same true h)
  · exact hwrap _ (readValues_of_same true h)
  · exact hwrap _ (readValues_of_same true h)
  · exact hend _
  · exact hend _
  · exact .read (positionless_readIdentifier _ h) fun name _ _ h => agree_end h rfl
  · exact hend _
  · exact .error _

end Setting

/-- **Phrases are read by their lexemes.** -/
theorem readPhrase_of_same (g : Setting) (h : Token.Same ts ts') :
    readPhrase g ts = readPhrase g ts' := by
  refine Agree.eq ?_
  simp only [readPhrase, ← h.first]
  split
  · exact .ok rfl
  · exact .ok rfl
  · exact .read (positionless_readIdentifier _ h.tail) fun name _ _ h =>
      Setting.readDirective_of_same name h
  · exact (Setting.readInvoke_of_same h.tail).bind fun _ _ hi => .ok (by rw [hi])
  · exact (Setting.readInstruction_of_same h).bind fun _ _ hi => .ok (by rw [hi])

/-- **Labels are read by their lexemes.** -/
theorem takeLabels_of_same (count : Nat) (h : Token.Same ts ts') :
    (takeLabels count ts).1 = (takeLabels count ts').1 ∧
      (takeLabels count ts).2.1 = (takeLabels count ts').2.1 ∧
      Token.Same (takeLabels count ts).2.2 (takeLabels count ts').2.2 := by
  fun_induction takeLabels count ts generalizing ts' with
  | case1 count name p q rest labels total tokens hread ih =>
    obtain ⟨p', _, rfl, hcolon⟩ := h.exists_cons
    obtain ⟨q', rest', rfl, hbehind⟩ := hcolon.exists_cons
    have hrest := ih hbehind
    rw [hread] at hrest
    simp only [takeLabels]
    exact ⟨congrArg _ hrest.1, hrest.2⟩
  | case2 count p rest labels total tokens hread ih =>
    obtain ⟨p', rest', rfl, hbehind⟩ := h.exists_cons
    have hrest := ih hbehind
    rw [hread] at hrest
    simp only [takeLabels]
    exact ⟨congrArg _ hrest.1, hrest.2⟩
  | case3 count ts hname hstar =>
    -- What is no label on one side is none on the other.
    have hnone : takeLabels count ts' = ([], count, ts') := by
      unfold takeLabels
      split
      · obtain ⟨p, _, rfl, hrest⟩ := h.symm.exists_cons
        obtain ⟨q, rest, rfl, -⟩ := hrest.exists_cons
        exact absurd rfl (hname _ p q rest)
      · obtain ⟨p, rest, rfl, -⟩ := h.symm.exists_cons
        exact absurd rfl (hstar p rest)
      · rfl
    rw [hnone]
    exact ⟨rfl, rfl, h⟩

end Source
end Assembler6502
