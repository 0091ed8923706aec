import Assembler6502.Proofs.LineGrammar
import Assembler6502.Proofs.TokenLines
import Assembler6502.Source.Reading

/-!
# Parsing token by token

A parser takes tokens one at a time, and nothing stops it at the end of a line but its own checks.
Still it comes to the same as reading the tokens of each line as a list. As long as no end of a line
is taken, the parser is on its line, and what it takes is what the grammar of the line takes from
the tokens that are left. Where a line is read to its end, the parser is in front of the next line;
where reading fails, it is still on the line, or behind its end and says so. So after every line,
whatever became of it, the parser is where skipping the line leads.

## Main definitions

* `Parser.Line`: the tokens from the current one up to the end of its line
* `Parser.Onward`: what is come to by taking tokens of one line
* `Parser.Follows`: a computation of a parser beside what the grammar of the line says

## Main results

* `Parser.closes_phrase`, `Parser.takeLabels_eq`: phrases and labels are those of the grammar
-/

namespace Assembler6502

theorem Lexeme.isLineEnd_of_isNumber {l : Lexeme} (h : l.isNumber = true) :
    l.isLineEnd = false := by
  cases l <;> first | rfl | cases h

namespace Parse

variable {α β : Type}

theorem bind_apply (x : Parse α) (f : α → Parse β) (p : Parser) :
    (x >>= f) p = match x p with
      | (.ok a, p) => f a p
      | (.error e, p) => (.error e, p) :=
  rfl

theorem current_bind (f : Lexeme → Parse β) (p : Parser) :
    (current >>= f) p = f p.current.lexeme p := rfl

theorem advance_bind (f : Unit → Parse β) (p : Parser) : (advance >>= f) p = f () p.advance := rfl

theorem room_bind (f : Nat → Parse β) (p : Parser) : (room >>= f) p = f p.room p := rfl

end Parse

namespace Parser

variable {p q : Parser} {ts rest : List Token} {m n : Nat}

/-! ## The line at hand -/

/-- The tokens from the current one up to the end of its line. -/
inductive Line : Parser → List Token → Prop
  | last {p : Parser} (h : p.current.lexeme.isLineEnd = true) : Line p [p.current]
  | cons {p : Parser} {ts : List Token} (h : p.current.lexeme.isLineEnd = false)
      (hrest : Line p.advance ts) : Line p (p.current :: ts)

/-- What is come to by taking tokens of one line, but not its end. -/
inductive Onward : Parser → Parser → Prop
  | refl (p : Parser) : Onward p p
  | step {p q : Parser} (h : p.current.lexeme.isLineEnd = false) (hrest : Onward p.advance q) :
      Onward p q

namespace Line

theorem first (h : p.Line ts) : Token.first ts = p.current.lexeme := by
  cases h with
  | last => rfl
  | cons => rfl

theorem tail (h : p.Line ts) (hend : p.current.lexeme.isLineEnd = false) :
    p.advance.Line ts.tail := by
  cases h with
  | last h => rw [h] at hend; cases hend
  | cons _ hrest => exact hrest

theorem exists_cons (h : p.Line ts) : ∃ rest, ts = p.current :: rest := by
  cases h with
  | last => exact ⟨[], rfl⟩
  | cons => exact ⟨_, rfl⟩

theorem pos (h : p.Line ts) : 0 < ts.length := by
  cases h with
  | last => exact Nat.one_pos
  | cons => exact Nat.succ_pos _

theorem withLineEnded (h : p.Line ts) (ended : Bool) :
    Line { p with lineEnded := ended } ts := by
  induction h with
  | @last p h => exact .last (p := { p with lineEnded := ended }) h
  | @cons p ts h _ ih => exact .cons (p := { p with lineEnded := ended }) h ih

/-- There is room for the tokens of a line. -/
theorem length_le (h : p.Line ts) : ts.length ≤ p.room := by
  induction h with
  | last => simp [room]
  | @cons p ts h hrest ih =>
    by_cases hend : p.cursor.next.token.lexeme = .endOfFile
    · -- The text ends behind the two tokens in hand.
      have hahead : p.advance.advance.current.lexeme.isLineEnd = true :=
        (congrArg Lexeme.isLineEnd hend).trans rfl
      cases hrest with
      | last => simp [room]
      | cons _ hrest =>
        cases hrest with
        | last => simp [room]
        | cons h => rw [hahead] at h; cases h
    · have hshort := Cursor.length_next p.cursor.position p.cursor.rest hend
      simp only [room, advance, List.length_cons] at ih ⊢
      have : ts.length ≤ p.cursor.next.after.rest.length + 3 := ih
      have : p.cursor.next.after.rest.length < p.cursor.rest.length := hshort
      omega

end Line

namespace Onward

theorem trans {r : Parser} (h : p.Onward q) (h' : q.Onward r) : p.Onward r := by
  induction h with
  | refl => exact h'
  | step h _ ih => exact .step h (ih h')

theorem lineEnded (h : p.Onward q) : q.lineEnded = p.lineEnded := by
  induction h with
  | refl => rfl
  | step _ _ ih => exact ih

end Onward

/-! ## Skipping a line -/

theorem skipToEnd_of_isLineEnd (h : p.current.lexeme.isLineEnd = true) : skipToEnd n p = p := by
  cases n with
  | zero => rfl
  | succ n => simp [skipToEnd, h]

theorem skipToEnd_step (h : p.current.lexeme.isLineEnd = false) :
    skipToEnd (n + 1) p = skipToEnd n p.advance := by
  simp [skipToEnd, h]

/-- More fuel than the line has tokens makes no difference. -/
theorem Line.skipToEnd_eq (h : p.Line ts) (hm : ts.length ≤ m) (hn : ts.length ≤ n) :
    skipToEnd m p = skipToEnd n p := by
  induction h generalizing m n with
  | last h => rw [skipToEnd_of_isLineEnd h, skipToEnd_of_isLineEnd h]
  | cons h _ ih =>
    simp only [List.length_cons] at hm hn
    obtain ⟨m, rfl⟩ : ∃ k, m = k + 1 := ⟨m - 1, by omega⟩
    obtain ⟨n, rfl⟩ : ∃ k, n = k + 1 := ⟨n - 1, by omega⟩
    rw [skipToEnd_step h, skipToEnd_step h]
    exact ih (by omega) (by omega)

/-- **Skipping a line leads to the same place**, wherever on the line it starts. -/
theorem Onward.skipToEnd_eq (h : p.Onward q) (hp : p.Line ts) (hq : q.Line rest)
    (hm : ts.length ≤ m) (hn : rest.length ≤ n) : skipToEnd m p = skipToEnd n q := by
  induction h generalizing ts m with
  | refl p =>
    exact (hp.skipToEnd_eq hm (Nat.le_max_left ts.length rest.length)).trans
      (hq.skipToEnd_eq (Nat.le_max_right ts.length rest.length) hn)
  | @step p q h _ ih =>
    cases hp with
    | last hend => rw [hend] at h; cases h
    | cons _ hrest =>
      simp only [List.length_cons] at hm
      obtain ⟨m, rfl⟩ : ∃ k, m = k + 1 := ⟨m - 1, by omega⟩
      rw [skipToEnd_step h]
      exact ih hrest hq (by omega)

theorem Onward.exists_line (h : p.Onward q) (hq : q.Line rest) : ∃ ts, p.Line ts := by
  induction h with
  | refl => exact ⟨rest, hq⟩
  | step h _ ih =>
    obtain ⟨ts, hts⟩ := ih hq
    exact ⟨_, .cons h hts⟩

theorem Onward.exists_rest (h : p.Onward q) (hp : p.Line ts) : ∃ rest, q.Line rest := by
  induction h generalizing ts with
  | refl => exact ⟨ts, hp⟩
  | step h _ ih => exact ih (hp.tail h)

theorem Onward.skipLine_eq (h : p.Onward q) (hq : q.Line rest) : p.skipLine = q.skipLine := by
  obtain ⟨ts, hp⟩ := h.exists_line hq
  simp only [skipLine, h.skipToEnd_eq hp hq hp.length_le hq.length_le]

theorem skipLine_of_endOfLine (h : p.current.lexeme = .endOfLine) : p.skipLine = p.advance := by
  simp [skipLine, skipToEnd_of_isLineEnd (p := p) (by simp [h, Lexeme.isLineEnd]), h]

theorem skipLine_of_endOfFile (h : p.current.lexeme = .endOfFile) : p.skipLine = p := by
  simp [skipLine, skipToEnd_of_isLineEnd (p := p) (by simp [h, Lexeme.isLineEnd]), h]

/-! ## Computations on a line -/

/-- A place on the line of `o`, with the tokens that are left of the line, at most `k` of them. -/
structure On (o : Parser) (k : Nat) (p : Parser) (ts : List Token) : Prop where
  onward : o.Onward p
  line : p.Line ts
  length_le : ts.length ≤ k

variable {o : Parser} {k : Nat}

namespace On

theorem first (h : o.On k p ts) : Token.first ts = p.current.lexeme :=
  h.line.first

theorem mono {l : Nat} (h : o.On k p ts) (hl : k ≤ l) : o.On l p ts :=
  ⟨h.onward, h.line, Nat.le_trans h.length_le hl⟩

theorem exact (h : o.On k p ts) : o.On ts.length p ts :=
  ⟨h.onward, h.line, Nat.le_refl _⟩

theorem pos (h : o.On k p ts) : 0 < k :=
  Nat.lt_of_lt_of_le h.line.pos h.length_le

theorem exists_succ (h : o.On k p ts) (hn : k ≤ n) : ∃ l, n = l + 1 :=
  ⟨n - 1, by have := h.pos; omega⟩

theorem advance (h : o.On (k + 1) p ts) (hend : p.current.lexeme.isLineEnd = false) :
    o.On k p.advance ts.tail := by
  refine ⟨h.onward.trans (.step hend (.refl _)), h.line.tail hend, ?_⟩
  have := h.length_le
  simp only [List.length_tail]
  omega

theorem advance' (h : o.On k p ts) (hend : p.current.lexeme.isLineEnd = false) :
    o.On k p.advance ts.tail :=
  (h.mono (Nat.le_succ k)).advance hend

end On

variable {α β γ δ : Type} {R : α → Parser → γ → Prop} {S : β → Parser → δ → Prop}

/-- A computation that starts on the line of `o`, beside what the grammar of the line says. Both
fail alike, and then the parser is still on the line; or both come to results that are related. -/
inductive Follows (o : Parser) (R : α → Parser → γ → Prop) :
    Except ParseError α × Parser → Except ParseError γ → Prop
  | ok {a : α} {q : Parser} {c : γ} (h : R a q c) : Follows o R (.ok a, q) (.ok c)
  | error {e : ParseError} {q : Parser} (h : o.Onward q) : Follows o R (.error e, q) (.error e)

theorem Follows.bind {x : Parse α} {y : Except ParseError γ} {f : α → Parse β}
    {g : γ → Except ParseError δ} (h : Follows o R (x p) y)
    (hf : ∀ a q c, R a q c → Follows o S (f a q) (g c)) :
    Follows o S ((x >>= f) p) (y >>= g) := by
  rw [Parse.bind_apply]
  generalize x p = result at h
  cases h with
  | ok h => exact hf _ _ _ h
  | error h => exact .error h

/-- A part of the line is taken. -/
def Takes (o : Parser) (k : Nat) :
    Except ParseError α × Parser → Except ParseError (α × List Token) → Prop :=
  Follows o fun a q c => c.1 = a ∧ o.On k q c.2

/-- A part of the line is taken that says nothing by itself. -/
def Passes (o : Parser) (k : Nat) :
    Except ParseError Unit × Parser → Except ParseError (List Token) → Prop :=
  Follows o fun _ q ts => o.On k q ts

/-- The rest of the line is taken, with its end. -/
def Closes (o : Parser) : Except ParseError α × Parser → Except ParseError α → Prop :=
  Follows o fun a q c => c = a ∧ q = { o.skipLine with lineEnded := true }

theorem Takes.bind {x : Parse α} {y : Except ParseError (α × List Token)} {f : α → Parse β}
    {g : α × List Token → Except ParseError δ} (h : Takes o k (x p) y)
    (hf : ∀ a q ts, o.On k q ts → Follows o S (f a q) (g (a, ts))) :
    Follows o S ((x >>= f) p) (y >>= g) :=
  Follows.bind h fun a q c hc => by
    obtain ⟨rfl, hq⟩ := hc
    exact hf c.1 q c.2 hq

theorem Takes.map {x : Parse α} {a : α} (h : Takes o k (x p) (.ok (a, ts))) (f : α → β) :
    Takes o k ((x >>= fun a => pure (f a)) p) (.ok (f a, ts)) :=
  h.bind (g := fun c => .ok (f c.1, c.2)) fun _ _ _ hq => .ok ⟨rfl, hq⟩

theorem follows_lift (h : o.On k p ts) (y : Except ParseError α) :
    Follows o (fun a q c => c = a ∧ q = p) (Parse.lift y p) y := by
  cases y with
  | ok a => exact .ok ⟨rfl, rfl⟩
  | error e => exact .error h.onward

theorem takes_unexpected (h : o.On k p ts) (what : String) :
    Follows o R (Parse.unexpected what p) (.error (.unexpected what ts)) := by
  rw [ParseError.unexpected, h.first]
  exact .error h.onward

/-! ### Single tokens -/

theorem passes_expectMark (h : o.On k p ts) (mark : Punctuation) (what : String) :
    Passes o k (Parse.expectMark mark what p) (Token.expectMark mark what ts) := by
  rw [Token.expectMark, h.first, Parse.expectMark, Parse.current_bind]
  split
  · rename_i hmark
    exact .ok (h.advance' (by rw [hmark]; rfl))
  · exact takes_unexpected h what

theorem takes_expectIdentifier (h : o.On k p ts) (what : String) :
    Takes o k (Parse.expectIdentifier what p) (Source.readIdentifier what ts) := by
  rw [Source.readIdentifier, h.first, Parse.expectIdentifier, Parse.current_bind]
  cases hl : p.current.lexeme with
  | identifier name => exact .ok ⟨rfl, h.advance' (by rw [hl]; rfl)⟩
  | _ => exact takes_unexpected h what

theorem takes_expectString (h : o.On k p ts) :
    Takes o k (Parse.expectString p) (Source.readString ts) := by
  rw [Source.readString, h.first, Parse.expectString, Parse.current_bind]
  cases hl : p.current.lexeme with
  | string text => exact .ok ⟨rfl, h.advance' (by rw [hl]; rfl)⟩
  | _ => exact takes_unexpected h _

theorem passes_expectRegister (h : o.On k p ts) (register : String) :
    Passes o k (Parse.expectRegister register p) (Source.expectRegister register ts) := by
  rw [Source.expectRegister, h.first, Parse.expectRegister, Parse.current_bind]
  split
  · rename_i hname
    exact .ok (h.advance' (by rw [hname]; rfl))
  · exact takes_unexpected h _

/-- The end of the line is taken: the parser is where skipping the line leads. -/
theorem closes_expectEnd (h : o.On k p ts) :
    Closes o (Parse.expectEnd p) (Source.expectEnd ts) := by
  rw [Source.expectEnd, h.first, ParseError.unexpected, h.first, Closes,
    h.onward.skipLine_eq h.line]
  simp only [Parse.expectEnd]
  split
  · rename_i hend
    rw [hend, skipLine_of_endOfLine hend]
    exact .ok ⟨trivial, rfl⟩
  · rename_i hend
    rw [hend, skipLine_of_endOfFile hend]
    exact .ok ⟨trivial, rfl⟩
  · rename_i hline hfile
    have hend : p.current.lexeme.isLineEnd = false := by
      cases hl : p.current.lexeme <;> simp_all [Lexeme.isLineEnd]
    rw [hend]
    exact .error h.onward

theorem closes_end (h : o.On k p ts) (a : α) :
    Closes o ((Parse.expectEnd >>= fun _ => pure a) p)
      (Source.expectEnd ts >>= fun _ => pure a) := by
  refine (closes_expectEnd h).bind ?_
  rintro - q - ⟨-, rfl⟩
  exact .ok ⟨rfl, rfl⟩

theorem closes_at_end (h : o.On k p ts) (hend : p.current.lexeme.isLineEnd = true) (a : α) :
    Closes o ((Parse.expectEnd >>= fun _ => pure a) p) (.ok a) := by
  have hread : Source.expectEnd ts = .ok () := by rw [Source.expectEnd, h.first, if_pos hend]
  have hclose := closes_end h a
  rwa [hread] at hclose

/-- Both sides go by whether there is a comma. -/
theorem follows_comma (h : o.On (k + 1) p ts) {x y : Parse β} {x' y' : Except ParseError δ}
    (hcomma : o.On k p.advance ts.tail → Follows o S (x p.advance) x')
    (hnone : Follows o S (y p) y') :
    Follows o S ((Parse.takeComma >>= fun comma => if comma = true then x else y) p)
      (if Source.atComma ts = true then x' else y') := by
  rw [Source.atComma, h.first]
  by_cases hl : p.current.lexeme = .mark .comma
  · have htake : Parse.takeComma p = (.ok true, p.advance) := by
      simp only [Parse.takeComma, Parse.current_bind, hl]; rfl
    rw [Parse.bind_apply, htake, hl]
    exact hcomma (h.advance (by rw [hl]; rfl))
  · have htake : Parse.takeComma p = (.ok false, p) := by
      simp only [Parse.takeComma, Parse.current_bind, if_neg hl]; rfl
    rw [Parse.bind_apply, htake]
    simpa [hl] using hnone

/-! ### Expressions -/

/-- Two readers of operands that agree on at most `k` tokens. -/
def Operand (o : Parser) (k : Nat) (x : Parse Expr) (f : Expr.Reader Expr) : Prop :=
  ∀ l ≤ k, ∀ p ts, o.On l p ts → Takes o l (x p) (f ts)

variable {x : Parse Expr} {f : Expr.Reader Expr}

theorem Takes.mono {α : Type} {l : Nat} {x : Except ParseError α × Parser}
    {y : Except ParseError (α × List Token)} (h : Takes o k x y) (hl : k ≤ l) : Takes o l x y := by
  cases h with
  | ok h => exact .ok ⟨h.1, h.2.mono hl⟩
  | error h => exact .error h

theorem leadingOperator?_eq (level : Expr.Level) (ts : List Token) :
    Expr.leadingOperator? level ts = Parse.operator? level (Token.first ts) := by
  rcases ts with - | ⟨⟨l, position⟩, rest⟩
  · rfl
  · cases l <;> rfl

theorem isLineEnd_of_operator? {level : Expr.Level} {l : Lexeme} {op : Operator}
    (h : Parse.operator? level l = some op) : l.isLineEnd = false := by
  cases l with
  | mark => rfl
  | _ => cases h

theorem takes_operations (level : Expr.Level) (hx : Operand o k x f) (hm : k ≤ m) (hn : k ≤ n)
    (h : o.On k p ts) :
    Takes o k (Parse.operations level x m p) (Expr.readOperations level f n ts) := by
  induction m generalizing k n p ts with
  | zero => exact absurd h.pos (by omega)
  | succ m ih =>
    obtain ⟨n, rfl⟩ := h.exists_succ hn
    obtain ⟨k, rfl⟩ := h.exists_succ (Nat.le_refl k)
    rw [Expr.readOperations, leadingOperator?_eq, h.first, Parse.operations, Parse.current_bind]
    cases hop : Parse.operator? level p.current.lexeme with
    | none => exact .ok ⟨rfl, h⟩
    | some op =>
      -- The operator takes a token, so the operand is read with one less left.
      have hrest := h.advance (isLineEnd_of_operator? hop)
      dsimp only
      rw [Parse.advance_bind]
      refine (hx k (Nat.le_succ k) _ _ hrest).bind fun e q ts hq => ?_
      have hothers := ih (fun l hl => hx l (Nat.le_succ_of_le hl)) (Nat.le_of_succ_le_succ hm)
        (Nat.le_of_succ_le_succ hn) hq
      refine hothers.bind fun rest q ts hq => ?_
      exact .ok ⟨rfl, hq.mono (Nat.le_succ k)⟩

theorem operand_level (level : Expr.Level) (hx : Operand o k x f) :
    Operand o k (Parse.level level x) (Expr.readLevel level f) := by
  intro l hl p ts h
  refine (hx l hl p ts h).bind fun first q ts hq => ?_
  have hops := takes_operations level
    (fun j hj => hx j (Nat.le_trans hj (Nat.le_trans hq.length_le hl)))
    hq.line.length_le (Nat.le_refl _) hq.exact
  rw [Parse.room_bind]
  exact (hops.mono hq.length_le).bind fun rest q ts hq => .ok ⟨rfl, hq⟩

theorem operand_levels (hx : Operand o k x f) :
    Operand o k (Parse.levels x) (Expr.readLevels f) :=
  operand_level _ (operand_level _ (operand_level _ hx))

theorem takes_marks (mark : Punctuation) (hm : k ≤ m) (h : o.On k p ts) :
    Takes o k (Parse.marks mark m p)
      (.ok ((ts.takeWhile (Expr.isMark mark)).length, ts.dropWhile (Expr.isMark mark))) := by
  induction m generalizing k p ts with
  | zero => exact absurd h.pos (by omega)
  | succ m ih =>
    obtain ⟨k, rfl⟩ := h.exists_succ (Nat.le_refl k)
    obtain ⟨rest, hts⟩ := h.line.exists_cons
    rw [Parse.marks, Parse.current_bind]
    by_cases hmark : p.current.lexeme = .mark mark
    · have hrest := ih (by omega) (h.advance (by rw [hmark]; rfl))
      rw [if_pos hmark, Parse.advance_bind]
      have htake : Expr.isMark mark p.current = true := by simp [Expr.isMark, hmark]
      rw [hts] at hrest ⊢
      rw [List.takeWhile_cons_of_pos htake, List.dropWhile_cons_of_pos htake]
      exact (hrest.mono (Nat.le_succ k)).map (· + 1)
    · have htake : ¬ Expr.isMark mark p.current = true := by simp [Expr.isMark, hmark]
      rw [if_neg hmark, hts, List.takeWhile_cons_of_neg htake, List.dropWhile_cons_of_neg htake,
        ← hts]
      exact .ok ⟨rfl, h⟩

theorem operand_atom (count : Nat) (hm : k ≤ m) (hn : k ≤ n) :
    Operand o k (Parse.atom count m) (Expr.readAtom count n) := by
  induction m generalizing k n with
  | zero => exact fun l hl p ts h => absurd h.pos (by omega)
  | succ m ih =>
    intro l hl p ts h
    obtain ⟨n, rfl⟩ := h.exists_succ (Nat.le_trans hl hn)
    obtain ⟨l, rfl⟩ := h.exists_succ (Nat.le_refl l)
    obtain ⟨rest, hts⟩ := h.line.exists_cons
    -- What stands inside of brackets or behind a mark has less of the line left.
    have hatom : Operand o l (Parse.atom count m) (Expr.readAtom count n) :=
      ih (by omega) (by omega)
    have hrest (hend : p.current.lexeme.isLineEnd = false) : o.On l p.advance rest := by
      have := h.advance hend
      rwa [hts] at this
    have hnumber (lexeme : Lexeme) (hl : p.current.lexeme = lexeme) : Takes o (l + 1)
        ((if lexeme.isNumber then do
            let v ← Parse.lift lexeme.value
            Parse.advance
            return Expr.constant v
          else Parse.fail (.expectedExpression lexeme.text) : Parse Expr) p)
        (if lexeme.isNumber then do
            let v ← lexeme.value
            return (.constant v, rest)
          else .error (.expectedExpression lexeme.text)) := by
      split
      · rename_i hn
        have hend : p.current.lexeme.isLineEnd = false := hl ▸ Lexeme.isLineEnd_of_isNumber hn
        refine (follows_lift h lexeme.value).bind ?_
        rintro v q - ⟨rfl, rfl⟩
        exact .ok ⟨rfl, (hrest hend).mono (Nat.le_succ l)⟩
      · exact .error h.onward
    rw [hts, Expr.readAtom, Parse.atom, Parse.current_bind]
    dsimp only
    cases hl : p.current.lexeme with
    | identifier name =>
      exact .ok ⟨rfl, (hrest (by rw [hl]; rfl)).mono (Nat.le_succ l)⟩
    | mark mark =>
      cases mark with
      | caret => exact .ok ⟨rfl, (hrest (by rw [hl]; rfl)).mono (Nat.le_succ l)⟩
      | bracketLeft =>
        dsimp only
        rw [Parse.advance_bind]
        have hinner := operand_levels hatom l (Nat.le_refl l) _ _ (hrest (by rw [hl]; rfl))
        refine hinner.bind fun e q ts hq => ?_
        refine (passes_expectMark hq .bracketRight "]").bind fun _ q ts hq => ?_
        exact .ok ⟨rfl, hq.mono (Nat.le_succ l)⟩
      | plus | minus =>
        dsimp only
        rw [Parse.room_bind, ← hts]
        exact ((takes_marks _ h.line.length_le h.exact).mono h.length_le).map _
      | greaterThan | lessThan =>
        dsimp only
        rw [Parse.advance_bind]
        refine (hatom l (Nat.le_refl l) _ _ (hrest (by rw [hl]; rfl))).bind fun e q ts hq => ?_
        exact .ok ⟨rfl, hq.mono (Nat.le_succ l)⟩
      | _ => exact .error h.onward
    | _ => exact hnumber _ hl

theorem takes_expr (count : Nat) (h : o.On k p ts) :
    Takes o k (Parse.expr count p) (Expr.read count ts) := by
  have hatom := operand_atom (o := o) count h.line.length_le (Nat.le_refl ts.length)
  exact (operand_levels hatom _ (Nat.le_refl _) p ts h.exact).mono h.length_le

/-! ### Phrases -/

variable (g : Source.Setting)

theorem closes_single (h : o.On k p ts) : Closes o (Parse.single g p) (g.readSingle ts) :=
  (takes_expr g.count h).bind fun e _ _ hq => closes_end hq e

theorem takes_value (translate : Bool) (h : o.On k p ts) :
    Takes o k (Parse.value g translate p) (g.readValue translate ts) := by
  rw [Source.Setting.readValue, h.first, Parse.value, Parse.current_bind]
  cases hl : p.current.lexeme with
  | string text => exact .ok ⟨rfl, h.advance' (by rw [hl]; rfl)⟩
  | _ => exact (takes_expr g.count h).bind fun e q ts hq => .ok ⟨rfl, hq⟩

theorem closes_valuesFrom (translate : Bool) (hm : k ≤ m) (hn : k ≤ n) (h : o.On k p ts) :
    Closes o (Parse.valuesFrom g translate m p) (g.readValuesFrom translate n ts) := by
  induction m generalizing k n p ts with
  | zero => exact absurd h.pos (by omega)
  | succ m ih =>
    obtain ⟨n, rfl⟩ := h.exists_succ hn
    obtain ⟨k, rfl⟩ := h.exists_succ (Nat.le_refl k)
    refine (takes_value g translate h).bind fun first q ts hq => ?_
    refine follows_comma hq (fun hcomma => ?_) ?_
    · refine (ih (Nat.le_of_succ_le_succ hm) (Nat.le_of_succ_le_succ hn) hcomma).bind ?_
      rintro rest q - ⟨rfl, rfl⟩
      exact .ok ⟨rfl, rfl⟩
    · exact closes_end hq first

theorem closes_values (translate : Bool) (h : o.On k p ts) :
    Closes o (Parse.values g translate p) (g.readValues translate ts) :=
  closes_valuesFrom g translate h.line.length_le (Nat.le_succ _) h.exact

theorem takes_mnemonic (h : o.On k p ts) : Takes o k (Parse.mnemonic g p) (g.readMnemonic ts) := by
  refine (takes_expectIdentifier h "opcode").bind fun name q ts hq => ?_
  dsimp only
  cases (Mnemonic.ofText? name.toList).filter g.cpu.hasMnemonic with
  | none => exact .error hq.onward
  | some m => exact .ok ⟨rfl, hq⟩

theorem takes_pointerShape (h : o.On k p ts) :
    Takes o k (Parse.pointerShape p) (Source.Setting.readPointerShape ts) := by
  refine follows_comma (h.mono (Nat.le_succ k)) (fun hcomma => ?_) ?_
  · refine (passes_expectRegister hcomma "x").bind fun _ q ts hq => ?_
    refine (passes_expectMark hq .parenRight ")").bind fun _ q ts hq => ?_
    exact .ok ⟨rfl, hq⟩
  · refine (passes_expectMark h .parenRight ")").bind fun _ q ts hq => ?_
    refine follows_comma (hq.mono (Nat.le_succ k)) (fun hcomma => ?_) (.ok ⟨rfl, hq⟩)
    exact (passes_expectRegister hcomma "y").bind fun _ q ts hq => .ok ⟨rfl, hq⟩

theorem takes_memoryShape (h : o.On k p ts) :
    Takes o k (Parse.memoryShape p) (Source.Setting.readMemoryShape ts) := by
  refine follows_comma (h.mono (Nat.le_succ k)) (fun hcomma => ?_) (.ok ⟨rfl, h⟩)
  generalize ts.tail = ts at hcomma ⊢
  generalize p.advance = p at hcomma ⊢
  rw [hcomma.first, Parse.current_bind]
  split
  · rename_i hl
    exact .ok ⟨rfl, hcomma.advance' (by rw [hl]; rfl)⟩
  · split
    · rename_i hl
      exact .ok ⟨rfl, hcomma.advance' (by rw [hl]; rfl)⟩
    · exact takes_unexpected hcomma _

theorem Closes.map {x : Parse α} {y : Except ParseError α} (h : Closes o (x p) y) (f : α → β) :
    Closes o ((x >>= fun a => pure (f a)) p) (y >>= fun a => pure (f a)) := by
  refine Follows.bind h ?_
  rintro a q - ⟨rfl, rfl⟩
  exact .ok ⟨rfl, rfl⟩

theorem closes_instruction (h : o.On k p ts) :
    Closes o (Parse.instruction g p) (g.readInstruction ts) := by
  refine (takes_mnemonic g h).bind fun m p ts h => ?_
  dsimp only
  rw [h.first, Parse.current_bind]
  have hplain : Closes o ((do
        let e ← Parse.expr g.count
        let shape ← Parse.memoryShape
        Parse.expectEnd
        return Instruction.pending m shape e) p) (do
      let x ← g.readExpr ts
      let y ← Source.Setting.readMemoryShape x.2
      Source.expectEnd y.2
      return .pending m y.1 x.1) := by
    refine (takes_expr g.count h).bind fun e p ts h => ?_
    refine (takes_memoryShape h).bind fun shape p ts h => ?_
    exact closes_end h _
  cases hl : p.current.lexeme with
  | endOfLine | endOfFile => exact closes_at_end h (by rw [hl]; rfl) _
  | mark mark =>
    cases mark with
    | hash =>
      refine (takes_expr g.count (h.advance' (by rw [hl]; rfl))).bind fun e p ts h => ?_
      exact closes_end h _
    | parenLeft =>
      refine (takes_expr g.count (h.advance' (by rw [hl]; rfl))).bind fun e p ts h => ?_
      refine (takes_pointerShape h).bind fun shape p ts h => ?_
      exact closes_end h _
    | _ => exact hplain
  | _ => exact hplain

theorem closes_invoke (h : o.On k p ts) : Closes o (Parse.invoke g p) (g.readInvoke ts) := by
  refine (takes_expectIdentifier h "label").bind fun name p ts h => ?_
  dsimp only
  rw [h.first, Parse.current_bind]
  split
  · rename_i hend
    exact closes_at_end h hend _
  · exact (closes_values g true h).map _

theorem closes_segment (default : String) (h : o.On k p ts) :
    Closes o (Parse.segment default p) (Source.Setting.readSegment default ts) := by
  rw [Source.Setting.readSegment, h.first, Parse.segment, Parse.current_bind]
  cases hl : p.current.lexeme with
  | identifier name => exact closes_end (h.advance' (by rw [hl]; rfl)) name
  | _ => exact closes_end h default

theorem closes_advanceItem (h : o.On k p ts) :
    Closes o (Parse.advanceItem g p) (g.readAdvance ts) := by
  refine (takes_expr g.count h).bind fun target p ts h => ?_
  refine follows_comma (h.mono (Nat.le_succ k)) (fun hcomma => ?_) (closes_end h _)
  exact (takes_expr g.count hcomma).bind fun fill p ts h => closes_end h _

theorem closes_reserve (h : o.On k p ts) :
    Closes o (Parse.reserve p) (Source.Setting.readReserve ts) := by
  refine (takes_expectIdentifier h "label").bind fun name p ts h => ?_
  dsimp only
  rw [h.first, Parse.current_bind]
  split
  · rename_i hnumber
    refine (follows_lift h p.current.lexeme.value).bind ?_
    rintro size q - ⟨rfl, rfl⟩
    exact closes_end (h.advance' (Lexeme.isLineEnd_of_isNumber hnumber)) _
  · exact takes_unexpected h "number"

theorem closes_incbin (h : o.On k p ts) : Closes o (Parse.incbin g p) (g.readIncbin ts) := by
  refine (takes_expectString h).bind fun name p ts h => ?_
  refine follows_comma (h.mono (Nat.le_succ k)) (fun hcomma => ?_) (closes_end h _)
  refine (takes_expr g.count hcomma).bind fun offset p ts h => ?_
  refine follows_comma (h.mono (Nat.le_succ k)) (fun hcomma => ?_) (closes_end h _)
  exact (takes_expr g.count hcomma).bind fun length p ts h => closes_end h _

theorem closes_fileName (h : o.On k p ts) :
    Closes o (Parse.fileName p) (Source.Setting.readFileName ts) :=
  (takes_expectString h).bind fun name _ _ h => closes_end h name

theorem closes_charmap (h : o.On k p ts) : Closes o (Parse.charmap g p) (g.readCharmap ts) := by
  rw [Source.Setting.readCharmap, h.first, Parse.charmap, Parse.current_bind]
  split
  · rename_i hend
    exact closes_at_end h hend _
  · exact (closes_values g false h).map _

theorem closes_directive (name : String) (h : o.On k p ts) :
    Closes o (Parse.directive g name p) (g.readDirective name ts) := by
  unfold Parse.directive Source.Setting.readDirective
  split
  · exact (closes_fileName h).map _
  · exact (closes_fileName h).map _
  · exact (closes_fileName h).map _
  · exact closes_incbin g h
  · exact closes_charmap g h
  · exact (closes_fileName h).map _
  · exact (closes_invoke g h).map _
  · exact (closes_single g h).map _
  · exact (closes_single g h).map _
  · exact (closes_advanceItem g h).map _
  · exact (takes_expectIdentifier h "label").bind fun name p ts h => (closes_single g h).map _
  · exact closes_reserve h
  · exact (closes_segment _ h).map _
  · exact (closes_segment _ h).map _
  · exact (closes_values g true h).map _
  · exact (closes_values g true h).map _
  · exact (closes_values g true h).map _
  · exact (closes_values g true h).map _
  · exact (closes_values g true h).map _
  · exact closes_end h _
  · exact closes_end h _
  · exact (takes_expectIdentifier h "label").bind fun name p ts h => closes_end h _
  · exact closes_end h _
  · -- No name of a directive is left on the other side.
    first
      | exact .error h.onward
      | split <;> first | contradiction | exact .error h.onward

theorem closes_phrase (h : o.On k p ts) : Closes o (Parse.phrase g p) (Source.readPhrase g ts) := by
  rw [Source.readPhrase, h.first, Parse.phrase, Parse.current_bind]
  cases hl : p.current.lexeme with
  | endOfLine | endOfFile => exact closes_at_end h (by rw [hl]; rfl) _
  | mark mark =>
    cases mark with
    | dot =>
      refine (takes_expectIdentifier (h.advance' (by rw [hl]; rfl)) "label").bind
        fun name p ts h => ?_
      exact closes_directive g name h
    | backtick => exact (closes_invoke g (h.advance' (by rw [hl]; rfl))).map _
    | _ => exact (closes_instruction g h).map _
  | _ => exact (closes_instruction g h).map _

/-! ### Labels -/

omit g in
/-- The labels that are taken are those at the beginning of the line. -/
theorem takeLabels_eq (count : Nat) (hn : k ≤ n) (h : o.On k p ts) :
    ∃ q, p.takeLabels count n =
        (((Source.takeLabels count ts).1, (Source.takeLabels count ts).2.1), q) ∧
      o.On k q (Source.takeLabels count ts).2.2 := by
  fun_induction Source.takeLabels count ts generalizing k n p with
  | case1 count name position position' rest labels total others heq ih =>
    obtain ⟨n, rfl⟩ := h.exists_succ hn
    obtain ⟨k, rfl⟩ := h.exists_succ (Nat.le_refl k)
    have hname : p.current.lexeme = .identifier name := h.first.symm
    have hrest := h.advance (by rw [hname]; rfl)
    have hcolon : p.ahead.lexeme = .mark .colon := hrest.first.symm
    obtain ⟨q, hq, hon⟩ := ih (Nat.le_of_succ_le_succ hn)
      (hrest.advance' (congrArg Lexeme.isLineEnd hcolon))
    refine ⟨q, ?_, ?_⟩
    · simp only [takeLabels, hname, hcolon, if_true, hq, heq]
    · rw [heq] at hon
      exact hon.mono (Nat.le_succ k)
  | case2 count position rest labels total others heq ih =>
    obtain ⟨n, rfl⟩ := h.exists_succ hn
    obtain ⟨k, rfl⟩ := h.exists_succ (Nat.le_refl k)
    have hstar : p.current.lexeme = .mark .star := h.first.symm
    obtain ⟨q, hq, hon⟩ := ih (Nat.le_of_succ_le_succ hn) (h.advance (by rw [hstar]; rfl))
    refine ⟨q, ?_, ?_⟩
    · simp only [takeLabels, hstar, hq, heq]
    · rw [heq] at hon
      exact hon.mono (Nat.le_succ k)
  | case3 count ts hlabel hstar =>
    obtain ⟨n, rfl⟩ := h.exists_succ hn
    -- No label comes next, neither as a name with a colon nor as a star.
    refine ⟨p, ?_, h⟩
    obtain ⟨rest, rfl⟩ := h.line.exists_cons
    simp only [takeLabels]
    split
    · rename_i name hname
      rw [if_neg]
      intro hcolon
      have hrest := h.advance' (by rw [hname]; rfl)
      obtain ⟨others, rfl⟩ : ∃ others, rest = p.ahead :: others := hrest.line.exists_cons
      exact hlabel name p.current.position p.ahead.position others
        (by rw [← hname, ← hcolon])
    · rename_i hmark
      exact absurd (by rw [← hmark]) (hstar p.current.position rest)
    · rfl

end Parser
end Assembler6502
