import Assembler6502.Proofs.Lexemes

/-!
# References to anonymous labels

Where an operand comes next, a run of plus signs refers to an anonymous label ahead and a run of
minus signs to one behind. Which label that is depends on how many anonymous labels stand before the
line. The references of a line can be spelled out: each run is replaced by the name of its label.
The line then says the same, and it says so wherever it stands.

Whether an operand comes next is seen from the token before, except at the beginning of a line,
where the name of an operation, a directive, a macro or a constant comes first.

## Main definitions

* `Token.operandBehind`: whether an operand comes next behind a token
* `Token.spelledOut`: tokens whose references are spelled out
* `Source.spelledPhrase`: the tokens of a phrase whose references are spelled out
* `Follows`: an attempt that succeeds if another one does

## Main results

* `Expr.follows_read`: expressions are the same when their references are spelled out
* `Source.readPhrase_spelledPhrase`: so are phrases, and they do not depend on the place any more
-/

namespace Assembler6502

/-! ## Spelling out -/

namespace Token

/-- Whether an operand comes next behind a token, if one came next before the token or not. Where an
operand comes next, a caret is one and no operator. -/
def operandBehind (operand : Bool) (t : Token) : Bool :=
  match t.lexeme with
  | .mark .comma | .mark .hash | .mark .parenLeft | .mark .bracketLeft | .mark .lessThan
  | .mark .greaterThan => true
  | .mark .plus | .mark .minus | .mark .star | .mark .slash | .mark .ampersand | .mark .pipe
  | .mark .caret => !operand
  | _ => false

/-- The name of the anonymous label with an index. -/
def anonymous (index : Int) (p : Position) : Token :=
  ⟨.identifier ("*" ++ Text.decimal index), p⟩

/-- Tokens whose references are spelled out, behind `count` anonymous labels. The first `skip`
tokens are signs that were spelled out already. -/
def spelledFrom (count : Nat) : Nat → Bool → List Token → List Token
  | _, _, [] => []
  | skip + 1, operand, _ :: ts => spelledFrom count skip operand ts
  | 0, operand, t :: ts =>
    if operand && Expr.isMark .plus t then
      let signs := (t :: ts).takeWhile (Expr.isMark .plus)
      anonymous (count + signs.length) t.position :: spelledFrom count (signs.length - 1) false ts
    else if operand && Expr.isMark .minus t then
      let signs := (t :: ts).takeWhile (Expr.isMark .minus)
      anonymous (count + 1 - signs.length) t.position ::
        spelledFrom count (signs.length - 1) false ts
    else t :: spelledFrom count 0 (operandBehind operand t) ts

/-- Tokens whose references are spelled out, behind `count` anonymous labels: where an operand comes
next, `k` plus signs become the name of the label with index `count + k`, and `k` minus signs that
of the label with index `count + 1 - k`. -/
def spelledOut (count : Nat) (operand : Bool) (ts : List Token) : List Token :=
  spelledFrom count 0 operand ts

variable {count skip : Nat} {operand : Bool} {t : Token} {ts : List Token}

theorem spelledFrom_eq (count skip : Nat) (operand : Bool) (ts : List Token) :
    spelledFrom count skip operand ts = spelledOut count operand (ts.drop skip) := by
  induction ts generalizing skip with
  | nil => simp [spelledOut, spelledFrom]
  | cons t ts ih =>
    cases skip with
    | zero => rfl
    | succ skip => exact ih skip

/-- Behind the first sign of a run, as many tokens are skipped as there are signs left. -/
theorem drop_signs {mark : Punctuation} (h : Expr.isMark mark t = true) :
    ts.drop (((t :: ts).takeWhile (Expr.isMark mark)).length - 1) =
      (t :: ts).dropWhile (Expr.isMark mark) := by
  rw [List.takeWhile_cons_of_pos h, List.dropWhile_cons_of_pos h, List.length_cons,
    Nat.add_sub_cancel]
  have hsplit := List.takeWhile_append_dropWhile (p := Expr.isMark mark) (l := ts)
  exact (congrArg (List.drop _) hsplit.symm).trans List.drop_left

theorem spelledOut_plus (h : Expr.isMark .plus t = true) :
    spelledOut count true (t :: ts) =
      anonymous (count + ((t :: ts).takeWhile (Expr.isMark .plus)).length) t.position ::
        spelledOut count false ((t :: ts).dropWhile (Expr.isMark .plus)) := by
  rw [spelledOut, spelledFrom, if_pos (by simp [h])]
  dsimp only
  rw [spelledFrom_eq, drop_signs h]

theorem spelledOut_minus (h : Expr.isMark .minus t = true) :
    spelledOut count true (t :: ts) =
      anonymous (count + 1 - ((t :: ts).takeWhile (Expr.isMark .minus)).length) t.position ::
        spelledOut count false ((t :: ts).dropWhile (Expr.isMark .minus)) := by
  have hplus : Expr.isMark .plus t = false := by
    simp only [Expr.isMark, decide_eq_true_eq] at h
    simp [Expr.isMark, h]
  rw [spelledOut, spelledFrom, if_neg (by simp [hplus]), if_pos (by simp [h])]
  dsimp only
  rw [spelledFrom_eq, drop_signs h]

/-- All other tokens stay. -/
theorem spelledOut_cons (h : operand = true →
      t.lexeme ≠ .mark .plus ∧ t.lexeme ≠ .mark .minus) :
    spelledOut count operand (t :: ts) =
      t :: spelledOut count (operandBehind operand t) ts := by
  have hsigns : (operand && Expr.isMark .plus t) = false ∧
      (operand && Expr.isMark .minus t) = false := by
    cases operand with
    | false => exact ⟨rfl, rfl⟩
    | true => simpa [Expr.isMark] using h rfl
  rw [spelledOut, spelledFrom, if_neg (by simp [hsigns.1]), if_neg (by simp [hsigns.2])]
  rfl

theorem spelledOut_false : spelledOut count false (t :: ts) =
    t :: spelledOut count (operandBehind false t) ts :=
  spelledOut_cons (by simp)

/-- Where an operand comes next, a reference becomes a name and any other token stays. -/
theorem spelledOut_cases (count : Nat) (t : Token) (ts : List Token) :
    ((t.lexeme = .mark .plus ∨ t.lexeme = .mark .minus) ∧
        ∃ index rest, spelledOut count true (t :: ts) = anonymous index t.position :: rest) ∨
      ((t.lexeme ≠ .mark .plus ∧ t.lexeme ≠ .mark .minus) ∧
        spelledOut count true (t :: ts) = t :: spelledOut count (operandBehind true t) ts) := by
  by_cases hplus : t.lexeme = .mark .plus
  · exact .inl ⟨.inl hplus, _, _, spelledOut_plus (decide_eq_true hplus)⟩
  · by_cases hminus : t.lexeme = .mark .minus
    · exact .inl ⟨.inr hminus, _, _, spelledOut_minus (decide_eq_true hminus)⟩
    · exact .inr ⟨⟨hplus, hminus⟩, spelledOut_cons fun _ => ⟨hplus, hminus⟩⟩

theorem length_spelledOut_pos (count : Nat) (t : Token) (ts : List Token) :
    0 < (spelledOut count true (t :: ts)).length := by
  rcases spelledOut_cases count t ts with ⟨-, index, rest, hspelled⟩ | ⟨-, hspelled⟩
  · simp [hspelled]
  · simp [hspelled]

theorem first_spelledOut : first (spelledOut count false ts) = first ts := by
  cases ts with
  | nil => rfl
  | cons t ts =>
    rw [spelledOut_false]
    rfl

end Token

/-! ## Attempts that follow -/

/-- The second attempt succeeds if the first does, with a related result. -/
def Follows {ε α : Type} (S : α → α → Prop) (x x' : Except ε α) : Prop :=
  ∀ a, x = .ok a → ∃ a', x' = .ok a' ∧ S a a'

/-- The same result, in front of tokens whose references are spelled out. -/
def Source.Spelled {α : Type} (count : Nat) (x x' : α × List Token) : Prop :=
  x' = (x.1, Token.spelledOut count false x.2)

namespace Follows

variable {ε α β : Type} {S : α → α → Prop} {T : β → β → Prop} {x x' : Except ε α}

theorem ok {a a' : α} (h : S a a') : Follows S (.ok a : Except ε α) (.ok a') := by
  rintro _ ⟨⟩
  exact ⟨a', rfl, h⟩

theorem error (e : ε) : Follows S (.error e) x' := by
  rintro _ ⟨⟩

theorem bind {f f' : α → Except ε β} (hx : Follows S x x')
    (hf : ∀ a a', x = .ok a → S a a' → Follows T (f a) (f' a')) :
    Follows T (x >>= f) (x' >>= f') := by
  intro b hb
  obtain ⟨a, ha, hfa⟩ := bind_eq_ok.mp hb
  obtain ⟨a', ha', hS⟩ := hx a ha
  obtain ⟨b', hb', hT⟩ := hf a a' ha hS b hfa
  exact ⟨b', bind_eq_ok.mpr ⟨a', ha', hb'⟩, hT⟩

theorem read {count : Nat} {y y' : Except ε (α × List Token)}
    {f f' : α × List Token → Except ε β} (hy : Follows (Source.Spelled count) y y')
    (hf : ∀ a ts, y = .ok (a, ts) →
      Follows T (f (a, ts)) (f' (a, Token.spelledOut count false ts))) :
    Follows T (y >>= f) (y' >>= f') := by
  refine hy.bind ?_
  rintro ⟨a, ts⟩ _ hok rfl
  exact hf a ts hok

theorem same {f f' : α → Except ε β} (hf : ∀ a, x = .ok a → Follows T (f a) (f' a)) :
    Follows T (x >>= f) (x >>= f') := by
  intro b hb
  obtain ⟨a, ha, hfa⟩ := bind_eq_ok.mp hb
  obtain ⟨b', hb', hT⟩ := hf a ha b hfa
  exact ⟨b', bind_eq_ok.mpr ⟨a, ha, hb'⟩, hT⟩

theorem eq (h : Follows Eq x x') {a : α} (ha : x = .ok a) : x' = .ok a := by
  obtain ⟨a', ha', rfl⟩ := h a ha
  exact ha'

theorem ite {p : Prop} [Decidable p] {y y' : Except ε α} (hx : Follows S x x')
    (hy : Follows S y y') : Follows S (if p then x else y) (if p then x' else y') := by
  split
  · exact hx
  · exact hy

end Follows

/-! ## Expressions -/

namespace Expr

open Token (spelledOut)
open Source (Spelled)

/-- A reader that takes at least one token. -/
def Reader.Takes (read : Reader Expr) : Prop :=
  ∀ ts, Yields (fun x => x.2.length < ts.length) (read ts)

/-- Reading goes the same way when references are spelled out, with at most `bound` tokens. -/
def Reader.Mirrors (count bound : Nat) (read read' : Reader Expr) : Prop :=
  ∀ ts, (spelledOut count true ts).length ≤ bound →
    Follows (Spelled count) (read ts) (read' (spelledOut count true ts))

variable {count bound : Nat} {p : Precedence} {operand operand' : Reader Expr} {ts : List Token}

section Takes

theorem takes_readOperations (h : operand.Takes) (level : Level) (fuel : Nat) (ts : List Token) :
    Yields (fun x => x.2.length ≤ ts.length) (readOperations level operand fuel ts) := by
  induction fuel generalizing ts with
  | zero => exact .pure (Nat.le_refl _)
  | succ fuel ih =>
    unfold readOperations
    split
    · exact .pure (Nat.le_refl _)
    · -- The operand takes a token, and the operations behind it give none back.
      refine .bind_of (h ts.tail) ?_
      rintro ⟨e, behind⟩ hbehind
      refine .bind_of (ih behind) ?_
      rintro ⟨rest, left⟩ hleft
      refine .pure ?_
      have htail : ts.tail.length ≤ ts.length := by simp
      dsimp only at hbehind hleft ⊢
      omega

theorem takes_readLevel (h : operand.Takes) (level : Level) :
    Reader.Takes (readLevel level operand) := by
  intro ts
  refine .bind_of (h ts) ?_
  rintro ⟨first, behind⟩ hbehind
  refine .bind_of (takes_readOperations h level _ behind) ?_
  rintro ⟨rest, left⟩ hleft
  exact .pure (Nat.lt_of_le_of_lt hleft hbehind)

theorem takes_readLevels (h : operand.Takes) : Reader.Takes (readLevels operand) :=
  takes_readLevel (takes_readLevel (takes_readLevel h _) _) _

theorem length_dropSigns {mark : Punctuation} {t : Token} {rest : List Token}
    (h : t.lexeme = .mark mark) :
    ((t :: rest).dropWhile (isMark mark)).length < (t :: rest).length := by
  rw [List.dropWhile_cons_of_pos (by simp [isMark, h]), List.length_cons]
  exact Nat.lt_succ_of_le (List.dropWhile_suffix _).length_le

theorem takes_readAtom (count depth : Nat) : Reader.Takes (readAtom count depth) := by
  induction depth with
  | zero => exact fun ts => .error _
  | succ depth ih =>
    intro ts
    unfold readAtom
    split
    · exact .error _
    · rename_i t rest
      split
      · exact .pure (Nat.lt_succ_self _)
      · exact .pure (Nat.lt_succ_self _)
      · -- The levels inside brackets take a token, and the closing bracket gives none back.
        refine .bind_of (takes_readLevels ih rest) ?_
        rintro ⟨e, behind⟩ hbehind
        refine .bind_of (Q := fun left => left.length ≤ behind.length) ?_ fun left hleft => .pure ?_
        · unfold Token.expectMark
          split
          · exact .pure (by simp)
          · exact .error _
        · dsimp only at hbehind ⊢
          simp only [List.length_cons]
          omega
      · rename_i hplus
        exact .pure (length_dropSigns hplus)
      · rename_i hminus
        exact .pure (length_dropSigns hminus)
      · refine .bind_of (ih rest) ?_
        rintro ⟨e, behind⟩ hbehind
        exact .pure (Nat.lt_succ_of_lt hbehind)
      · refine .bind_of (ih rest) ?_
        rintro ⟨e, behind⟩ hbehind
        exact .pure (Nat.lt_succ_of_lt hbehind)
      · split
        · exact .bind fun v => .pure (Nat.lt_succ_self _)
        · exact .error _

end Takes

theorem leadingOperator?_spelledOut (count : Nat) (level : Level) (ts : List Token) :
    leadingOperator? level (spelledOut count false ts) = leadingOperator? level ts := by
  cases ts with
  | nil => rfl
  | cons t ts =>
    rw [Token.spelledOut_false]
    obtain ⟨l, q⟩ := t
    cases l <;> rfl

/-- Behind an operator an operand comes next. -/
theorem tail_spelledOut (count : Nat) {op : Operator} (h : leadingOperator? p.level ts = some op) :
    (spelledOut count false ts).tail = spelledOut count true ts.tail := by
  cases ts with
  | nil => cases h
  | cons t ts =>
    obtain ⟨l, q⟩ := t
    have hbehind : Token.operandBehind false ⟨l, q⟩ = true := by
      cases l with
      | mark mark => cases p <;> cases mark <;> first | rfl | cases h
      | _ => cases h
    rw [Token.spelledOut_false, hbehind]
    rfl

theorem Reader.Mirrors.ok (h : Reader.Mirrors count bound operand operand')
    (hbound : (spelledOut count true ts).length ≤ bound) {e : Expr} {behind : List Token}
    (hok : operand ts = .ok (e, behind)) :
    operand' (spelledOut count true ts) = .ok (e, spelledOut count false behind) := by
  obtain ⟨_, hok', rfl⟩ := h ts hbound _ hok
  exact hok'

theorem follows_readOperations (h : Reader.Mirrors count bound operand operand')
    (htakes : operand.Takes) (htakes' : operand'.Takes) {fuel fuel' : Nat} {ts : List Token}
    (hfuel : ts.length ≤ fuel) (hfuel' : (spelledOut count false ts).length ≤ fuel')
    (hbound : (spelledOut count false ts).length ≤ bound) :
    Follows (Spelled count) (readOperations p.level operand fuel ts)
      (readOperations p.level operand' fuel' (spelledOut count false ts)) := by
  -- Both amounts of fuel are enough, as every operation takes a token on both sides.
  induction fuel generalizing fuel' ts with
  | zero =>
    obtain rfl := List.length_eq_zero_iff.mp (Nat.le_zero.mp hfuel)
    cases fuel' <;> exact .ok rfl
  | succ fuel ih =>
    have hleading := leadingOperator?_spelledOut count p.level ts
    cases hop : leadingOperator? p.level ts with
    | none =>
      rw [hop] at hleading
      have hread' : readOperations p.level operand' fuel' (spelledOut count false ts) =
          .ok ([], spelledOut count false ts) := by
        cases fuel' <;> simp [readOperations, hleading]
      rw [hread']
      simp only [readOperations, hop]
      exact .ok rfl
    | some op =>
      rw [hop] at hleading
      have htail := tail_spelledOut count hop
      have hlength := congrArg List.length htail
      rw [List.length_tail] at hlength
      obtain ⟨fuel', rfl⟩ : ∃ k, fuel' = k + 1 := by
        cases fuel' with
        | zero =>
          rw [List.length_eq_zero_iff.mp (Nat.le_zero.mp hfuel')] at hleading
          cases hleading
        | succ k => exact ⟨k, rfl⟩
      have hleft : ts.tail.length ≤ fuel := by
        rw [List.length_tail]
        omega
      simp only [readOperations, hop, hleading, htail]
      refine .read (h ts.tail (by omega)) fun e behind hok => ?_
      have hshort := htakes ts.tail _ hok
      have hshort' := htakes' _ _ (h.ok (by omega) hok)
      dsimp only at hshort hshort' ⊢
      exact .read (ih (by omega) (by omega) (by omega)) fun rest left _ => .ok rfl

theorem mirrors_readLevel (h : Reader.Mirrors count bound operand operand')
    (htakes : operand.Takes) (htakes' : operand'.Takes) :
    Reader.Mirrors count bound (readLevel p.level operand) (readLevel p.level operand') := by
  intro ts hbound
  refine .read (h ts hbound) fun first behind hok => ?_
  have hshort' := htakes' _ _ (h.ok hbound hok)
  dsimp only at hshort' ⊢
  exact .read (follows_readOperations h htakes htakes' (Nat.le_refl _) (Nat.le_refl _) (by omega))
    fun rest left _ => .ok rfl

theorem mirrors_readLevels (h : Reader.Mirrors count bound operand operand')
    (htakes : operand.Takes) (htakes' : operand'.Takes) :
    Reader.Mirrors count bound (readLevels operand) (readLevels operand') := by
  have hfactor := mirrors_readLevel (p := .multiplicative) h htakes htakes'
  have hterm := mirrors_readLevel (p := .additive) hfactor (takes_readLevel htakes _)
    (takes_readLevel htakes' _)
  exact mirrors_readLevel (p := .bitwise) hterm (takes_readLevel (takes_readLevel htakes _) _)
    (takes_readLevel (takes_readLevel htakes' _) _)

/-- A closing mark stays, and no operand comes next behind it. -/
theorem follows_expectMark {mark : Punctuation} (what : String)
    (hmark : ∀ q, Token.operandBehind false ⟨.mark mark, q⟩ = false) :
    Follows (fun us us' => us' = spelledOut count false us) (Token.expectMark mark what ts)
      (Token.expectMark mark what (spelledOut count false ts)) := by
  cases ts with
  | nil => exact .error _
  | cons t ts =>
    obtain ⟨l, q⟩ := t
    rw [Token.spelledOut_false]
    by_cases hl : l = .mark mark
    · simp only [Token.expectMark, Token.first_cons, hl, hmark, if_true]
      exact .ok rfl
    · simp only [Token.expectMark, Token.first_cons, hl, if_false]
      exact .error _

theorem ofText_anonymous (index : Int) :
    Symbol.ofText ("*" ++ Text.decimal index) = anonymousLabel index := by
  simp [Symbol.ofText, anonymousLabel]

theorem readAtom_anonymous (m depth : Nat) (index : Int) (q : Position) (rest : List Token) :
    readAtom m (depth + 1) (Token.anonymous index q :: rest) =
      .ok (.symbol (anonymousLabel index), rest) := by
  rw [← ofText_anonymous]
  rfl

theorem mirrors_readAtom (count m depth depth' : Nat) :
    Reader.Mirrors count depth' (readAtom count depth) (readAtom m depth') := by
  -- The second depth is enough as long as it covers the tokens, whatever the first one was.
  induction depth generalizing depth' with
  | zero => exact fun ts _ => .error _
  | succ depth ih =>
    intro ts hbound
    cases ts with
    | nil => exact .error _
    | cons t rest =>
      obtain ⟨depth', rfl⟩ : ∃ k, depth' = k + 1 :=
        ⟨depth' - 1, by have := Token.length_spelledOut_pos count t rest; omega⟩
      obtain ⟨l, q⟩ := t
      have hnumber : Follows (Spelled count)
          (l.value >>= fun v => pure (Expr.constant v, rest))
          (l.value >>= fun v => pure (Expr.constant v, spelledOut count false rest)) :=
        .same fun v _ => .ok rfl
      cases l with
      | identifier name =>
        rw [Token.spelledOut_cons (by simp)]
        exact .ok rfl
      | mark mark =>
        cases mark with
        | caret =>
          rw [Token.spelledOut_cons (by simp)]
          exact .ok rfl
        | bracketLeft =>
          rw [Token.spelledOut_cons (by simp)] at hbound ⊢
          have hinside := mirrors_readLevels (ih depth') (takes_readAtom count depth)
            (takes_readAtom m depth')
          refine .read (hinside rest (Nat.le_of_succ_le_succ hbound)) fun e behind _ => ?_
          exact .bind (follows_expectMark "]" fun _ => rfl) fun us _ _ h => h ▸ .ok rfl
        | plus =>
          rw [Token.spelledOut_plus rfl, readAtom_anonymous]
          exact .ok rfl
        | minus =>
          rw [Token.spelledOut_minus rfl, readAtom_anonymous]
          exact .ok rfl
        | greaterThan | lessThan =>
          rw [Token.spelledOut_cons (by simp)] at hbound ⊢
          exact .read (ih depth' rest (Nat.le_of_succ_le_succ hbound)) fun e behind _ => .ok rfl
        | _ => exact .error _
      | string text => exact .error _
      | endOfLine => exact .error _
      | endOfFile => exact .error _
      | _ =>
        rw [Token.spelledOut_cons (by simp)]
        exact hnumber

/-- **Expressions are the same when their references are spelled out.** -/
theorem follows_read (count m : Nat) (ts : List Token) :
    Follows (Spelled count) (read count ts) (read m (spelledOut count true ts)) :=
  mirrors_readLevels (mirrors_readAtom count m _ _) (takes_readAtom count _)
    (takes_readAtom m _) ts (Nat.le_refl _)

end Expr

/-! ## Phrases -/

namespace Source

open Token (spelledOut)

variable {count : Nat} {ts : List Token}

/-- A line ends where it ended. -/
theorem isLineEnd_spelledOut (count : Nat) (operand : Bool) (ts : List Token) :
    (Token.first (spelledOut count operand ts)).isLineEnd = (Token.first ts).isLineEnd := by
  cases operand with
  | false => rw [Token.first_spelledOut]
  | true =>
    cases ts with
    | nil => rfl
    | cons t ts =>
      rcases Token.spelledOut_cases count t ts with ⟨hsign, index, rest, hspelled⟩ | ⟨-, hspelled⟩
      · rw [hspelled]
        rcases hsign with hsign | hsign
        · simp [Token.first, hsign, Token.anonymous]
        · simp [Token.first, hsign, Token.anonymous]
      · rw [hspelled]
        rfl

theorem expectEnd_spelledOut (count : Nat) (operand : Bool) {ts : List Token}
    (h : expectEnd ts = .ok ()) : expectEnd (spelledOut count operand ts) = .ok () := by
  unfold expectEnd at h ⊢
  rw [isLineEnd_spelledOut]
  split at h
  · rename_i hend
    rw [if_pos hend]
  · cases h

theorem atComma_spelledOut (count : Nat) (ts : List Token) :
    atComma (spelledOut count false ts) = atComma ts := by
  rw [atComma, Token.first_spelledOut]
  rfl

theorem tail_of_comma (count : Nat) (h : atComma ts = true) :
    (spelledOut count false ts).tail = spelledOut count true ts.tail := by
  cases ts with
  | nil => cases h
  | cons t ts =>
    obtain ⟨l, q⟩ := t
    obtain rfl : l = .mark .comma := of_decide_eq_true h
    rw [Token.spelledOut_false]
    rfl

theorem follows_end {β : Type} {T : β → β → Prop} {b b' : β} {operand : Bool} (h : T b b')
    (count : Nat) (ts : List Token) :
    Follows T (do expectEnd ts; return b)
      (do expectEnd (spelledOut count operand ts); return b') := by
  intro a ha
  obtain ⟨_, hend, hb⟩ := bind_eq_ok.mp ha
  obtain rfl := Except.ok.inj hb
  exact ⟨b', bind_eq_ok.mpr ⟨(), expectEnd_spelledOut count operand hend, rfl⟩, h⟩

theorem follows_readIdentifier (what : String) (count : Nat) (ts : List Token) :
    Follows (Spelled count) (readIdentifier what ts)
      (readIdentifier what (spelledOut count true ts)) := by
  cases ts with
  | nil => exact .error _
  | cons t ts =>
    obtain ⟨l, q⟩ := t
    cases l with
    | identifier name =>
      rw [Token.spelledOut_cons (by simp)]
      exact .ok rfl
    | _ => exact .error _

theorem follows_readString (count : Nat) (ts : List Token) :
    Follows (Spelled count) (readString ts) (readString (spelledOut count true ts)) := by
  cases ts with
  | nil => exact .error _
  | cons t ts =>
    obtain ⟨l, q⟩ := t
    cases l with
    | string text =>
      rw [Token.spelledOut_cons (by simp)]
      exact .ok rfl
    | _ => exact .error _

theorem follows_expectRegister (register : String) (count : Nat) (ts : List Token) :
    Follows (fun us us' => us' = spelledOut count false us) (expectRegister register ts)
      (expectRegister register (spelledOut count true ts)) := by
  cases ts with
  | nil => exact .error _
  | cons t ts =>
    obtain ⟨l, q⟩ := t
    by_cases hl : l = .identifier register
    · rw [hl, Token.spelledOut_cons (by simp)]
      simp only [expectRegister, Token.first_cons, if_true]
      exact .ok rfl
    · simp only [expectRegister, Token.first_cons, hl, if_false]
      exact .error _

namespace Setting

/-- The same, behind another number of anonymous labels. -/
def placed (g : Setting) (m : Nat) : Setting :=
  { g with count := m }

variable (g : Setting) (m : Nat) (ts : List Token)

theorem follows_readSingle :
    Follows Eq (g.readSingle ts) ((g.placed m).readSingle (spelledOut g.count true ts)) :=
  .read (Expr.follows_read g.count m ts) fun _ _ _ => follows_end rfl _ _

theorem follows_readFileName (count : Nat) :
    Follows Eq (readFileName ts) (readFileName (spelledOut count true ts)) :=
  .read (follows_readString count ts) fun _ _ _ => follows_end rfl _ _

/-- What is no string is read as an expression. -/
theorem readValue_of_first {translate : Bool} {us : List Token}
    (h : ∀ text, Token.first us ≠ .string text) :
    g.readValue translate us = (do
      let (e, us) ← g.readExpr us
      return ([e], us)) := by
  unfold readValue
  split
  · rename_i htext
    exact absurd htext (h _)
  · rfl

theorem follows_readValue (translate : Bool) :
    Follows (Spelled g.count) (g.readValue translate ts)
      ((g.placed m).readValue translate (spelledOut g.count true ts)) := by
  by_cases hstring : ∃ text, Token.first ts = .string text
  · obtain ⟨text, htext⟩ := hstring
    cases ts with
    | nil => cases htext
    | cons t ts =>
      obtain ⟨l, q⟩ := t
      obtain rfl : l = .string text := htext
      rw [Token.spelledOut_cons (by simp)]
      exact .ok rfl
  · rw [not_exists] at hstring
    -- References become names where they are spelled out, so no value becomes a string.
    have hspelled : ∀ text, Token.first (spelledOut g.count true ts) ≠ .string text := by
      cases ts with
      | nil => exact hstring
      | cons t ts =>
        rcases Token.spelledOut_cases g.count t ts with ⟨-, index, rest, heq⟩ | ⟨-, heq⟩
        · rw [heq]
          intro text h
          cases h
        · rw [heq]
          exact hstring
    rw [readValue_of_first g hstring, readValue_of_first (g.placed m) hspelled]
    exact .read (Expr.follows_read g.count m ts) fun e behind _ => .ok rfl

theorem takes_readValue (translate : Bool) :
    Yields (fun x => x.2.length < ts.length) (g.readValue translate ts) := by
  unfold readValue
  split
  · rename_i htext
    cases ts with
    | nil => cases htext
    | cons t us => exact .pure (Nat.lt_succ_self _)
  · refine .bind_of (Expr.takes_readLevels (Expr.takes_readAtom _ _) _) ?_
    rintro ⟨e, behind⟩ hbehind
    exact .pure hbehind

theorem follows_readValuesFrom (translate : Bool) {fuel fuel' : Nat}
    (hfuel' : (spelledOut g.count true ts).length < fuel') :
    Follows Eq (g.readValuesFrom translate fuel ts)
      ((g.placed m).readValuesFrom translate fuel' (spelledOut g.count true ts)) := by
  induction fuel generalizing fuel' ts with
  | zero => exact .error _
  | succ fuel ih =>
    obtain ⟨fuel', rfl⟩ : ∃ k, fuel' = k + 1 := ⟨fuel' - 1, by omega⟩
    refine .read (g.follows_readValue m ts translate) fun values behind hok => ?_
    -- A value takes a token on the second side too, so its fuel lasts.
    obtain ⟨_, hok', rfl⟩ := g.follows_readValue m ts translate _ hok
    have hshort := (g.placed m).takes_readValue _ translate _ hok'
    dsimp only at hshort ⊢
    rw [atComma_spelledOut]
    split
    · rename_i hcomma
      have htail := tail_of_comma g.count hcomma
      have hlength := congrArg List.length htail
      rw [List.length_tail] at hlength
      rw [htail]
      refine .bind (ih _ (by omega)) fun rest _ _ hrest => ?_
      rw [← hrest]
      exact .ok rfl
    · exact follows_end rfl _ _

theorem follows_readValues (translate : Bool) :
    Follows Eq (g.readValues translate ts)
      ((g.placed m).readValues translate (spelledOut g.count true ts)) :=
  g.follows_readValuesFrom m ts translate (Nat.lt_succ_self _)

theorem follows_readPointerShape (count : Nat) :
    Follows (Spelled count) (readPointerShape ts)
      (readPointerShape (spelledOut count false ts)) := by
  have hclose := @Expr.follows_expectMark count
  simp only [readPointerShape, atComma_spelledOut]
  split
  · rename_i hcomma
    rw [tail_of_comma count hcomma]
    refine .bind (follows_expectRegister "x" count _) fun us _ _ h => h ▸ ?_
    exact .bind (hclose ")" fun _ => rfl) fun vs _ _ h => h ▸ .ok rfl
  · refine .bind (hclose ")" fun _ => rfl) fun us _ _ h => h ▸ ?_
    rw [atComma_spelledOut]
    split
    · rename_i hcomma
      rw [tail_of_comma count hcomma]
      exact .bind (follows_expectRegister "y" count _) fun vs _ _ h => h ▸ .ok rfl
    · exact .ok rfl

theorem follows_readMemoryShape (count : Nat) :
    Follows (Spelled count) (readMemoryShape ts)
      (readMemoryShape (spelledOut count false ts)) := by
  simp only [readMemoryShape, atComma_spelledOut]
  split
  · rename_i hcomma
    rw [tail_of_comma count hcomma]
    cases ts.tail with
    | nil => exact .error _
    | cons t us =>
      obtain ⟨l, q⟩ := t
      cases l with
      | identifier name =>
        rw [Token.spelledOut_cons (by simp)]
        by_cases hx : name = "x"
        · simp only [Token.first_cons, hx, if_true]
          exact .ok rfl
        · by_cases hy : name = "y"
          · simp only [Token.first_cons, hy]
            exact .ok rfl
          · simp only [Token.first_cons, Lexeme.identifier.injEq, hx, hy, if_false]
            exact .error _
      | _ => exact .error _
  · exact .ok rfl

/-- The name of an operation does not depend on what follows it. -/
theorem follows_readMnemonic (t : Token) (us : List Token) :
    Follows (fun x x' => x.2 = ts ∧ x' = (x.1, us)) (g.readMnemonic (t :: ts))
      ((g.placed m).readMnemonic (t :: us)) := by
  obtain ⟨l, q⟩ := t
  cases l with
  | identifier name =>
    refine .bind (S := fun x x' => x = (name, ts) ∧ x' = (name, us)) (.ok ⟨rfl, rfl⟩) ?_
    rintro _ _ - ⟨rfl, rfl⟩
    dsimp only [placed]
    cases (Mnemonic.ofText? name.toList).filter g.cpu.hasMnemonic with
    | some op => exact .ok ⟨rfl, rfl⟩
    | none => exact .error _
  | _ => exact .error _

/-- Behind the name of an operation an operand comes next. -/
theorem follows_readInstruction (t : Token) :
    Follows Eq (g.readInstruction (t :: ts))
      ((g.placed m).readInstruction (t :: spelledOut g.count true ts)) := by
  refine .bind (g.follows_readMnemonic m ts t _) ?_
  rintro ⟨op, _⟩ _ - ⟨rfl, rfl⟩
  dsimp only
  have hexpr := Expr.follows_read g.count m
  have hplain (us : List Token) : Follows Eq
      (do
        let x ← g.readExpr us
        let y ← readMemoryShape x.2
        expectEnd y.2
        return Instruction.pending op y.1 x.1)
      (do
        let x ← (g.placed m).readExpr (spelledOut g.count true us)
        let y ← readMemoryShape x.2
        expectEnd y.2
        return Instruction.pending op y.1 x.1) :=
    .read (hexpr us) fun e us _ =>
      .read (follows_readMemoryShape us g.count) fun shape _ _ => follows_end rfl _ _
  rename_i us
  cases us with
  | nil => exact .ok rfl
  | cons t us =>
    obtain ⟨l, q⟩ := t
    have hplain := hplain (⟨l, q⟩ :: us)
    rcases Token.spelledOut_cases g.count ⟨l, q⟩ us with
      ⟨hsign, index, rest, hspelled⟩ | ⟨hsign, hspelled⟩
    · -- A reference is a plain operand, and so is a name.
      rw [hspelled] at hplain ⊢
      rcases hsign with hsign | hsign
      · obtain rfl : l = .mark .plus := hsign
        exact hplain
      · obtain rfl : l = .mark .minus := hsign
        exact hplain
    · rw [hspelled] at hplain ⊢
      cases l with
      | mark mark =>
        cases mark with
        | hash => exact .read (hexpr us) fun e us _ => follows_end rfl _ _
        | parenLeft =>
          exact .read (hexpr us) fun e us _ =>
            .read (follows_readPointerShape us g.count) fun shape _ _ => follows_end rfl _ _
        | _ => exact hplain
      | endOfLine | endOfFile => exact .ok rfl
      | _ => exact hplain

/-- Behind the name of a macro an operand comes next. -/
theorem follows_readInvoke (t : Token) :
    Follows Eq (g.readInvoke (t :: ts))
      ((g.placed m).readInvoke (t :: spelledOut g.count true ts)) := by
  obtain ⟨l, q⟩ := t
  cases l with
  | identifier name =>
    show Follows Eq (if (Token.first ts).isLineEnd then _ else _)
      (if (Token.first (spelledOut g.count true ts)).isLineEnd then _ else _)
    rw [isLineEnd_spelledOut]
    refine .ite (.ok rfl) (.bind (g.follows_readValues m ts true) fun values _ _ h => ?_)
    rw [← h]
    exact .ok rfl
  | _ => exact .error _

theorem follows_readSegment (count : Nat) (default : String) :
    Follows Eq (readSegment default ts) (readSegment default (spelledOut count true ts)) := by
  cases ts with
  | nil => exact .ok rfl
  | cons t us =>
    obtain ⟨l, q⟩ := t
    cases l with
    | identifier name =>
      rw [Token.spelledOut_cons (by simp)]
      exact follows_end rfl count us
    | endOfLine | endOfFile =>
      rw [Token.spelledOut_cons (by simp)]
      exact .ok rfl
    | _ => exact .error _

theorem follows_readAdvance :
    Follows Eq (g.readAdvance ts) ((g.placed m).readAdvance (spelledOut g.count true ts)) := by
  refine .read (Expr.follows_read g.count m ts) fun target us _ => ?_
  dsimp only
  rw [atComma_spelledOut]
  split
  · rename_i hcomma
    rw [tail_of_comma g.count hcomma]
    exact .read (Expr.follows_read g.count m _) fun fill _ _ => follows_end rfl _ _
  · exact follows_end rfl _ _

theorem follows_readReserve (count : Nat) :
    Follows Eq (readReserve ts) (readReserve (spelledOut count true ts)) := by
  refine .read (follows_readIdentifier "label" count ts) fun name us _ => ?_
  dsimp only
  rw [Token.first_spelledOut]
  split
  · rename_i hnumber
    refine .same fun size _ => ?_
    cases us with
    | nil => cases hnumber
    | cons t us =>
      obtain ⟨l, q⟩ := t
      have hbehind : Token.operandBehind false ⟨l, q⟩ = false := by
        cases l with
        | mark mark => cases hnumber
        | _ => rfl
      rw [Token.spelledOut_false, hbehind]
      exact follows_end rfl count us
  · exact .error _

theorem follows_readIncbin :
    Follows Eq (g.readIncbin ts) ((g.placed m).readIncbin (spelledOut g.count true ts)) := by
  refine .read (follows_readString g.count ts) fun name us _ => ?_
  dsimp only
  rw [atComma_spelledOut]
  split
  · rename_i hcomma
    rw [tail_of_comma g.count hcomma]
    refine .read (Expr.follows_read g.count m _) fun offset vs _ => ?_
    dsimp only
    rw [atComma_spelledOut]
    split
    · rename_i hcomma
      rw [tail_of_comma g.count hcomma]
      exact .read (Expr.follows_read g.count m _) fun length _ _ => follows_end rfl _ _
    · exact follows_end rfl _ _
  · exact follows_end rfl _ _

theorem follows_readCharmap :
    Follows Eq (g.readCharmap ts) ((g.placed m).readCharmap (spelledOut g.count true ts)) := by
  simp only [readCharmap, isLineEnd_spelledOut]
  refine .ite (.ok rfl) (.bind (g.follows_readValues m ts false) fun values _ _ h => ?_)
  rw [← h]
  exact .ok rfl

/-- Behind the name of a directive an operand comes next, unless the directive takes a name. -/
theorem follows_readDirective {name : String} (hname : name ≠ "alias" ∧ name ≠ "invoke") :
    Follows Eq (g.readDirective name ts)
      ((g.placed m).readDirective name (spelledOut g.count true ts)) := by
  -- A directive with one argument wraps what is read in the same phrase.
  have hwrap {α : Type} {x x' : Except ParseError α} (f : α → Phrase) (hx : Follows Eq x x') :
      Follows Eq (do return f (← x)) (do return f (← x')) :=
    hx.bind fun _ _ _ h => .ok (congrArg f h)
  have hend (phrase : Phrase) : Follows Eq (do expectEnd ts; return phrase)
      (do expectEnd (spelledOut g.count true ts); return phrase) := follows_end rfl _ _
  have hfile := follows_readFileName ts g.count
  have hvalues := g.follows_readValues m ts true
  simp only [readDirective]
  split
  · exact hwrap _ hfile
  · exact hwrap _ hfile
  · exact hwrap _ hfile
  · exact g.follows_readIncbin m ts
  · exact g.follows_readCharmap m ts
  · exact hwrap _ hfile
  · exact absurd rfl hname.2
  · exact hwrap _ (g.follows_readSingle m ts)
  · exact hwrap _ (g.follows_readSingle m ts)
  · exact hwrap _ (g.follows_readAdvance m ts)
  · exact absurd rfl hname.1
  · exact follows_readReserve ts g.count
  · exact hwrap _ (follows_readSegment ts g.count _)
  · exact hwrap _ (follows_readSegment ts g.count _)
  · exact hwrap _ hvalues
  · exact hwrap _ hvalues
  · exact hwrap _ hvalues
  · exact hwrap _ hvalues
  · exact hwrap _ hvalues
  · exact hend _
  · exact hend _
  · exact .read (follows_readIdentifier _ _ ts) fun name _ _ => follows_end rfl _ _
  · exact hend _
  · exact .error _

/-- Behind the name that a directive takes an operand comes next. -/
theorem follows_readDirective_named {name : String} (hname : name = "alias" ∨ name = "invoke")
    (t : Token) :
    Follows Eq (g.readDirective name (t :: ts))
      ((g.placed m).readDirective name (t :: spelledOut g.count true ts)) := by
  rcases hname with rfl | rfl
  · obtain ⟨l, q⟩ := t
    cases l with
    | identifier label =>
      have hvalue : Follows Eq
          (do return Phrase.item (.label (.ofText label) (← g.readSingle ts)))
          (do return Phrase.item (.label (.ofText label)
            (← (g.placed m).readSingle (spelledOut g.count true ts)))) :=
        .bind (g.follows_readSingle m ts) fun e _ _ h => h ▸ .ok rfl
      exact hvalue
    | _ => exact .error _
  · exact .bind (g.follows_readInvoke m ts t) fun item _ _ h => h ▸ .ok rfl

end Setting

/-- The number of tokens before the first operand of a phrase: the name of an operation, a directive
or a macro, and a name that a directive takes. -/
def headerLength : List Token → Nat
  | ⟨.mark .dot, _⟩ :: ⟨.identifier name, _⟩ :: _ =>
    if name = "alias" ∨ name = "invoke" then 3 else 2
  | ⟨.mark .backtick, _⟩ :: _ => 2
  | _ => 1

/-- The tokens of a phrase whose references are spelled out, behind `count` anonymous labels. -/
def spelledPhrase (count : Nat) (ts : List Token) : List Token :=
  ts.take (headerLength ts) ++ spelledOut count true (ts.drop (headerLength ts))

theorem follows_readPhrase (g : Setting) (m : Nat) (ts : List Token) :
    Follows Eq (readPhrase g ts) (readPhrase (g.placed m) (spelledPhrase g.count ts)) := by
  cases ts with
  | nil => exact .ok rfl
  | cons t us =>
    obtain ⟨l, q⟩ := t
    have hinstruction : Follows Eq
        (do return Phrase.item (.instruction (← g.readInstruction (⟨l, q⟩ :: us))))
        (do return Phrase.item (.instruction
          (← (g.placed m).readInstruction (⟨l, q⟩ :: spelledOut g.count true us)))) :=
      .bind (g.follows_readInstruction m us ⟨l, q⟩) fun i _ _ h => h ▸ .ok rfl
    cases l with
    | mark mark =>
      cases mark with
      | dot =>
        -- The length of the header depends on the directive, and the header stays as it is.
        rcases us with _ | ⟨⟨l, q'⟩, vs⟩
        · exact .error _
        · cases l with
          | identifier name =>
            by_cases hname : name = "alias" ∨ name = "invoke"
            · have hlength (p : Position) : headerLength (⟨.mark .dot, p⟩ ::
                  ⟨.identifier name, q'⟩ :: vs) = 3 := if_pos hname
              rw [spelledPhrase, hlength]
              cases vs with
              | nil => rcases hname with rfl | rfl <;> exact .error _
              | cons t ws => exact g.follows_readDirective_named m ws hname t
            · have hlength (p : Position) : headerLength (⟨.mark .dot, p⟩ ::
                  ⟨.identifier name, q'⟩ :: vs) = 2 := if_neg hname
              rw [spelledPhrase, hlength]
              exact g.follows_readDirective m vs (not_or.mp hname)
          | _ => exact .error _
      | backtick =>
        cases us with
        | nil => exact .error _
        | cons t vs => exact .bind (g.follows_readInvoke m vs t) fun i _ _ h => h ▸ .ok rfl
      | _ => exact hinstruction
    | endOfLine | endOfFile => exact .ok rfl
    | _ => exact hinstruction

/-- **A phrase says the same when its references are spelled out**, and then it says so behind any
number of anonymous labels. -/
theorem readPhrase_spelledPhrase {cpu : Cpu} {charmap : Charmap} {count : Nat} {ts : List Token}
    {phrase : Phrase} (h : readPhrase ⟨cpu, charmap, count⟩ ts = .ok phrase) (m : Nat) :
    readPhrase ⟨cpu, charmap, m⟩ (spelledPhrase count ts) = .ok phrase :=
  (follows_readPhrase ⟨cpu, charmap, count⟩ m ts).eq h

end Source

end Assembler6502
