import Mathlib.Data.List.Forall2
import Assembler6502.Proofs.Lexemes
import Assembler6502.Proofs.Spelling

/-!
# Scanning from another position

The tokens of a text do not depend on where the text stands. Scanning the same characters from
another position gives the same lexemes and finds faults in the same tokens, and the lines that
these tokens make have the same lexemes.

A line also tells the faults of the two tokens behind it, so behind another line the faults of the
first two tokens are told with that line.

## Main definitions

* `Scanned.Same`: the same token, scanned at another position
* `Source.Line.Same`: lines with the same lexemes, both with faults or both without

## Main results

* `Token.scanFrom_same`: a text is scanned alike from every position
* `Source.linesFrom_same`: and gives lines with the same lexemes
* `Source.linesFrom_behind`: a text behind another line has the lines that it has alone
-/

namespace Assembler6502

/-- The same lexeme in front of the same characters, both with faults or both without. -/
structure Scanned.Same (s s' : Scanned) : Prop where
  lexeme : s.token.lexeme = s'.token.lexeme
  errors : s.errors = [] ↔ s'.errors = []
  after : s.after.rest = s'.after.rest

/-! ## Tokens -/

namespace Cursor

variable {p p' : Position} {cs : List Char}

theorem rest_skipToToken (p p' : Position) (cs : List Char) :
    (skipToToken ⟨p, cs⟩).rest = (skipToToken ⟨p', cs⟩).rest := by
  simp only [skipToToken, skipBlanks, skipWhile]
  split
  · rfl
  · rfl

/-- A string literal is scanned alike from every position. -/
theorem stringBody_same (p p' : Position) (cs : List Char) :
    (stringBody p cs).1 = (stringBody p' cs).1 ∧
      ((stringBody p cs).2.1 = [] ↔ (stringBody p' cs).2.1 = []) ∧
      (stringBody p cs).2.2.rest = (stringBody p' cs).2.2.rest := by
  fun_induction stringBody p cs generalizing p' with
  | case6 p y rest hy body errors after _ _ hbody ih =>
    have hsame := ih ((p'.past '\\').past y)
    rw [hbody] at hsame
    simpa [stringBody.eq_def p', hy] using hsame
  | case7 p x rest hnewline hquote hbackslash body errors after hbody ih =>
    have hsame := ih (p'.past x)
    rw [hbody] at hsame
    simpa [stringBody.eq_def p', hnewline, hquote, hbackslash] using hsame
  | _ => simp [stringBody.eq_def p']

/-- **The next token does not depend on the position.** -/
theorem next_same (p p' : Position) (cs : List Char) :
    Scanned.Same (next ⟨p, cs⟩) (next ⟨p', cs⟩) := by
  have hrest := rest_skipToToken p p' cs
  simp only [next]
  -- What is skipped before a token does not depend on the position either.
  generalize skipToToken ⟨p, cs⟩ = c at hrest ⊢
  generalize skipToToken ⟨p', cs⟩ = c' at hrest ⊢
  obtain ⟨q, rest⟩ := c
  obtain ⟨q', rest'⟩ := c'
  obtain rfl : rest = rest' := hrest
  cases rest with
  | nil => exact ⟨rfl, Iff.rfl, rfl⟩
  | cons x rest =>
    dsimp only
    split
    · exact ⟨rfl, Iff.rfl, rfl⟩
    · split
      · obtain ⟨hbody, herrors, hafter⟩ := stringBody_same (q.past x) (q'.past x) rest
        exact ⟨congrArg Lexeme.string hbody, herrors, hafter⟩
      · cases Punctuation.ofChar? x with
        | some mark => exact ⟨rfl, Iff.rfl, rfl⟩
        | none => exact ⟨rfl, Iff.rfl, rfl⟩

end Cursor

/-- A text that starts with its end has no faults. -/
theorem Source.faultsOf_scanFrom {fuel : Nat} {c : Cursor} {s : Scanned} {rest : List Scanned}
    (h : Token.scanFrom fuel c = s :: rest) (hs : s.token.lexeme = .endOfFile) :
    faultsOf (Token.scanFrom fuel c) = [] := by
  cases fuel with
  | zero => cases h
  | succ fuel =>
    obtain ⟨p, cs⟩ := c
    have hfirst : Cursor.next ⟨p, cs⟩ = s := by
      simp only [Token.scanFrom] at h
      split at h <;> exact (List.cons.inj h).1
    have heof : (Cursor.next ⟨p, cs⟩).token.lexeme = .endOfFile := hfirst ▸ hs
    simp [Token.scanFrom, heof, faultsOf, Cursor.errors_of_endOfFile p cs heof]

/-- **A text is scanned alike from every position**, with fuel for all of its characters. -/
theorem Token.scanFrom_same {fuel fuel' : Nat} {cs : List Char} (p p' : Position)
    (hfuel : cs.length < fuel) (hfuel' : cs.length < fuel') :
    List.Forall₂ Scanned.Same (scanFrom fuel ⟨p, cs⟩) (scanFrom fuel' ⟨p', cs⟩) := by
  induction fuel generalizing fuel' cs p p' with
  | zero => omega
  | succ fuel ih =>
    obtain ⟨fuel', rfl⟩ : ∃ n, fuel' = n + 1 := ⟨fuel' - 1, by omega⟩
    have hnext := Cursor.next_same p p' cs
    simp only [scanFrom, ← hnext.lexeme]
    split
    · exact .cons hnext .nil
    · rename_i hlexeme
      have hlength := Cursor.length_next p cs hlexeme
      refine .cons hnext ?_
      have hafter := hnext.after
      -- The same characters are left behind the token, at positions of their own.
      generalize (Cursor.next ⟨p, cs⟩).after = c at hlength hafter ⊢
      generalize (Cursor.next ⟨p', cs⟩).after = c' at hafter ⊢
      obtain ⟨q, rest⟩ := c
      obtain ⟨q', rest'⟩ := c'
      obtain rfl : rest = rest' := hafter
      dsimp only at hlength
      exact ih q q' (by omega) (by omega)

/-! ## Lines -/

namespace Source

/-- Lines with the same lexemes. -/
def Line.Same (line line' : Line) : Prop :=
  Token.Same line.tokens line'.tokens

/-- Whether some lines tell a fault. -/
def faulty (lines : List Line) : Bool :=
  lines.any fun line => !line.faults.isEmpty

variable {ss ss' : List Scanned}

theorem splitLine_same (h : List.Forall₂ Scanned.Same ss ss') :
    List.Forall₂ Scanned.Same (splitLine ss).1 (splitLine ss').1 ∧
      List.Forall₂ Scanned.Same (splitLine ss).2 (splitLine ss').2 := by
  induction h with
  | nil => exact ⟨.nil, .nil⟩
  | cons hs hss ih =>
    simp only [splitLine, ← hs.lexeme]
    split
    · exact ⟨.cons hs .nil, hss⟩
    · exact ⟨.cons hs ih.1, ih.2⟩

theorem tokens_same (h : List.Forall₂ Scanned.Same ss ss') :
    Token.Same (ss.map (·.token)) (ss'.map (·.token)) := by
  induction h with
  | nil => exact .nil
  | @cons s s' _ _ hs _ ih =>
    simp only [List.map_cons, Token.Same, hs.lexeme] at ih ⊢
    rw [ih]

theorem isEmpty_faultsOf (h : List.Forall₂ Scanned.Same ss ss') :
    (faultsOf ss).isEmpty = (faultsOf ss').isEmpty := by
  induction h with
  | nil => rfl
  | cons hs _ ih =>
    have hempty := hs.errors
    rw [Bool.eq_iff_iff] at ih ⊢
    simp only [faultsOf, List.isEmpty_iff, List.flatMap_cons, List.append_eq_nil_iff] at ih ⊢
    rw [hempty, ih]

/-- **Tokens with the same lexemes make lines with the same lexemes**, with fuel for all of them,
and the lines tell a fault on both sides or on none. -/
theorem linesFrom_same (known : Nat) {fuel fuel' : Nat} (h : List.Forall₂ Scanned.Same ss ss')
    (hfuel : ss.length ≤ fuel) (hfuel' : ss.length ≤ fuel') :
    List.Forall₂ Line.Same (linesFrom known fuel ss) (linesFrom known fuel' ss') ∧
      faulty (linesFrom known fuel ss) = faulty (linesFrom known fuel' ss') := by
  induction fuel generalizing known ss ss' fuel' with
  | zero =>
    obtain rfl := List.length_eq_zero_iff.mp (Nat.le_zero.mp hfuel)
    obtain rfl := List.forall₂_nil_left_iff.mp h
    cases fuel' <;> exact ⟨.nil, rfl⟩
  | succ fuel ih =>
    cases h with
    | nil => cases fuel' <;> exact ⟨.nil, rfl⟩
    | @cons s s' ss ss' hs hss =>
      obtain ⟨fuel', rfl⟩ : ∃ n, fuel' = n + 1 := ⟨fuel' - 1, by simp at hfuel'; omega⟩
      simp only [List.length_cons, Nat.add_le_add_iff_right] at hfuel hfuel'
      have hlength := length_splitLine s ss
      obtain ⟨hline, hrest⟩ := splitLine_same (.cons hs hss)
      simp only [linesFrom, ← hs.lexeme]
      split
      · exact ⟨.nil, rfl⟩
      · obtain ⟨hlines, hfaulty⟩ :=
          ih lookahead hrest (Nat.le_trans hlength hfuel) (Nat.le_trans hlength hfuel')
        refine ⟨.cons (tokens_same hline) hlines, ?_⟩
        -- A line tells the faults of its tokens, but for those told before, and of a few ahead.
        have hfresh := isEmpty_faultsOf (List.forall₂_drop known
          (List.rel_append hline (List.forall₂_take lookahead hrest)))
        simp only [faulty, List.any_cons] at hfaulty ⊢
        rw [hfaulty]
        exact congrArg (fun empty => !empty || _) hfresh

theorem take_splitLine (ss : List Scanned) :
    ((splitLine ss).1 ++ (splitLine ss).2.take lookahead).take lookahead = ss.take lookahead := by
  conv_rhs => rw [← splitLine_append ss]
  simp only [List.take_append, List.take_take]
  congr 2
  exact Nat.min_eq_left (Nat.sub_le _ _)

/-- **A text behind another line** has the lines that it has alone. The faults of its first two
tokens are told with the line before; alone, they are told with the first line. -/
theorem linesFrom_behind {fuel fuel' : Nat} (h : List.Forall₂ Scanned.Same ss ss')
    (hfuel : ss.length ≤ fuel) (hfuel' : ss.length ≤ fuel')
    (hend : ∀ s rest, ss' = s :: rest → s.token.lexeme = .endOfFile → faultsOf ss' = []) :
    List.Forall₂ Line.Same (linesFrom 0 fuel ss) (linesFrom lookahead fuel' ss') ∧
      faulty (linesFrom 0 fuel ss) =
        (!(faultsOf (ss'.take lookahead)).isEmpty || faulty (linesFrom lookahead fuel' ss')) := by
  cases h with
  | nil =>
    cases fuel <;> cases fuel' <;> exact ⟨.nil, rfl⟩
  | @cons s s' ss ss' hs hss =>
    obtain ⟨fuel, rfl⟩ : ∃ n, fuel = n + 1 := ⟨fuel - 1, by simp at hfuel; omega⟩
    obtain ⟨fuel', rfl⟩ : ∃ n, fuel' = n + 1 := ⟨fuel' - 1, by simp at hfuel'; omega⟩
    simp only [List.length_cons, Nat.add_le_add_iff_right] at hfuel hfuel'
    have hlength := length_splitLine s ss
    have htake := take_splitLine (s' :: ss')
    obtain ⟨hline, hrest⟩ := splitLine_same (.cons hs hss)
    simp only [linesFrom, hs.lexeme]
    split
    · rename_i heof
      have hnone := hend s' ss' rfl heof
      have hfirst : faultsOf ((s' :: ss').take lookahead) = [] := by
        simp only [faultsOf, List.flatMap_eq_nil_iff] at hnone ⊢
        exact fun t ht => hnone t (List.mem_of_mem_take ht)
      exact ⟨.nil, by simp [hfirst, faulty]⟩
    · obtain ⟨hlines, hfaulty⟩ := linesFrom_same lookahead hrest (Nat.le_trans hlength hfuel)
        (Nat.le_trans hlength hfuel')
      refine ⟨.cons (tokens_same hline) hlines, ?_⟩
      have htold := isEmpty_faultsOf
        (List.rel_append hline (List.forall₂_take lookahead hrest))
      rw [← htake]
      simp only [faulty, List.any_cons, List.drop_zero] at hfaulty ⊢
      rw [hfaulty]
      dsimp only at htold
      rw [htold]
      -- What is told with the first line falls into the first two tokens and the others.
      generalize (splitLine (s' :: ss')).1 ++ (splitLine (s' :: ss')).2.take lookahead = told
      have hsplit : faultsOf told =
          faultsOf (told.take lookahead) ++ faultsOf (told.drop lookahead) := by
        rw [faultsOf, faultsOf, faultsOf, ← List.flatMap_append, List.take_append_drop]
      rw [hsplit]
      cases faultsOf (told.take lookahead) <;> rfl

end Source
end Assembler6502
