import Mathlib.Data.List.Basic
import Assembler6502.Token.Scanner

/-!
# Lines of tokens

The tokens of a text, cut into lines. A line ends with its end-of-line token, or with the end of the
file if nothing follows. Scanning runs two tokens ahead of reading, so the faults inside the first
two tokens of a line are already known when the line before it is done. Every token but the end of
the text takes a character and every line takes a token, so more fuel than there are characters
makes no difference.

## Main definitions

* `Cursor.scan`: all tokens from a place on
* `Source.Line`: the tokens of a line, and the faults known by its end
* `Source.lines`: the lines of a text

## Main results

* `Cursor.scan_eq`: scanning takes one token after the other
-/

namespace Assembler6502

/-! ## Tokens -/

namespace Cursor

variable {p : Position} {cs : List Char} {c : Cursor}

@[simp] theorem isLineEnd_classify (word : List Char) : (classify word).isLineEnd = false := by
  unfold classify
  split <;> try rfl
  split <;> rfl

theorem classify_ne (word : List Char) {l : Lexeme} (hl : l.isLineEnd = true) :
    classify word ≠ l := by
  rintro rfl
  rw [isLineEnd_classify] at hl
  cases hl

theorem length_stringBody (p : Position) (cs : List Char) :
    (stringBody p cs).2.2.rest.length ≤ cs.length := by
  fun_induction stringBody p cs with
  | case6 p y rest hy body errors after _ _ hbody ih =>
    rw [hbody] at ih
    simp only [List.length_cons]
    exact Nat.le_trans ih (by omega)
  | case7 p x rest hnewline hquote hbackslash body errors after hbody ih =>
    rw [hbody] at ih
    exact Nat.le_trans ih (by simp)
  | _ => simp

theorem length_dropWhile_le (q : Char → Bool) (cs : List Char) :
    (cs.dropWhile q).length ≤ cs.length :=
  (List.dropWhile_suffix q).length_le

theorem length_skipToToken (p : Position) (cs : List Char) :
    (skipToToken ⟨p, cs⟩).rest.length ≤ cs.length := by
  simp only [skipToToken, skipBlanks, skipWhile]
  split
  · exact Nat.le_trans (length_dropWhile_le _ _) (length_dropWhile_le _ _)
  · exact length_dropWhile_le _ _

/-- What is found behind blanks and comments is no blank and no comment. -/
theorem skipToToken_cons {x : Char} {rest : List Char}
    (h : (skipToToken ⟨p, cs⟩).rest = x :: rest) :
    (Text.isBlank x = false ∨ x = '\n') ∧ x ≠ ';' := by
  have hhead {q : Char → Bool} {cs : List Char} (h : cs.dropWhile q = x :: rest) :
      q x = false := by
    have := List.head_dropWhile_not q (l := cs) (by simp [h])
    simpa [h] using this
  simp only [skipToToken, skipBlanks, skipWhile] at h
  split at h
  · have hx : x = '\n' := by simpa using hhead h
    exact ⟨.inr hx, by simp [hx]⟩
  · rename_i hcomment
    have hx := hhead h
    refine ⟨?_, ?_⟩
    · simpa [or_iff_not_imp_left] using hx
    · rintro rfl
      exact hcomment rest h

/-- **Every token but the end of the text takes a character.** -/
theorem length_next (p : Position) (cs : List Char)
    (h : (next ⟨p, cs⟩).token.lexeme ≠ .endOfFile) :
    (next ⟨p, cs⟩).after.rest.length < cs.length := by
  have hskip := length_skipToToken p cs
  have hcons := @skipToToken_cons p cs
  simp only [next] at h ⊢
  generalize skipToToken ⟨p, cs⟩ = c at h hskip hcons ⊢
  obtain ⟨q, rest⟩ := c
  cases rest with
  | nil => exact absurd rfl h
  | cons x rest =>
    obtain ⟨hblank, hcomment⟩ := hcons rfl
    simp only [List.length_cons] at hskip
    dsimp only
    split
    · exact hskip
    · rename_i hnewline
      split
      · exact Nat.lt_of_le_of_lt (length_stringBody (q.past x) rest) hskip
      · rename_i hquote
        cases hmark : Punctuation.ofChar? x with
        | some mark => exact hskip
        | none =>
          -- The first character of a word belongs to the word.
          have hword : isWordChar x = true := by
            simp [isWordChar, hblank.resolve_right hnewline, hcomment, hquote, hmark]
          have := length_dropWhile_le isWordChar rest
          simp only [skipWhile, List.dropWhile_cons, hword, if_true]
          omega

theorem errors_of_endOfFile (p : Position) (cs : List Char)
    (h : (next ⟨p, cs⟩).token.lexeme = .endOfFile) : (next ⟨p, cs⟩).errors = [] := by
  simp only [next] at h ⊢
  generalize skipToToken ⟨p, cs⟩ = c at h ⊢
  obtain ⟨q, rest⟩ := c
  cases rest with
  | nil => rfl
  | cons x rest =>
    dsimp only at h ⊢
    split at h
    · cases h
    · split at h
      · cases h
      · cases hmark : Punctuation.ofChar? x with
        | some mark =>
          rw [hmark] at h
          cases h
        | none => simp_all

/-- At the end of the text, nothing is left. -/
theorem rest_of_endOfFile (h : c.next.token.lexeme = .endOfFile) : c.next.after.rest = [] := by
  simp only [next] at h ⊢
  generalize c.skipToToken = d at h ⊢
  obtain ⟨p, rest⟩ := d
  cases rest with
  | nil => rfl
  | cons x rest =>
    dsimp only at h
    split at h
    · cases h
    · split at h
      · cases h
      · split at h
        · cases h
        · exact absurd h (classify_ne _ rfl)

theorem next_of_endOfFile (h : c.next.token.lexeme = .endOfFile) :
    c.next.after.next.token.lexeme = .endOfFile := by
  have hrest := rest_of_endOfFile h
  generalize c.next.after = d at hrest ⊢
  obtain ⟨p, rest⟩ := d
  obtain rfl : rest = [] := hrest
  rfl

/-- All tokens from a place on, up to and including the end of the text. -/
def scan (c : Cursor) : List Scanned :=
  Token.scanFrom (c.rest.length + 1) c

/-- More fuel than there are characters makes no difference. -/
theorem scanFrom_eq_scan {fuel : Nat} (c : Cursor) (h : c.rest.length < fuel) :
    Token.scanFrom fuel c = c.scan := by
  -- The fuel of `scan` depends on the place, so the induction compares any two amounts.
  suffices hfuel : ∀ fuel fuel' (c : Cursor), c.rest.length < fuel → c.rest.length < fuel' →
      Token.scanFrom fuel c = Token.scanFrom fuel' c from hfuel _ _ c h (Nat.lt_succ_self _)
  intro fuel
  induction fuel with
  | zero => exact fun _ _ h => absurd h (Nat.not_lt_zero _)
  | succ fuel ih =>
    intro fuel' c hfuel hfuel'
    obtain ⟨fuel', rfl⟩ : ∃ k, fuel' = k + 1 := ⟨fuel' - 1, by omega⟩
    simp only [Token.scanFrom]
    split
    · rfl
    · rename_i hlexeme
      have hlength : c.next.after.rest.length < c.rest.length :=
        length_next c.position c.rest hlexeme
      exact congrArg (c.next :: ·) (ih fuel' c.next.after (by omega) (by omega))

theorem scan_eq (c : Cursor) :
    c.scan = if c.next.token.lexeme = .endOfFile then [c.next]
      else c.next :: c.next.after.scan := by
  rw [scan, Token.scanFrom]
  split
  · rfl
  · rename_i hlexeme
    exact congrArg (c.next :: ·) (scanFrom_eq_scan _ (length_next c.position c.rest hlexeme))

theorem exists_scan (c : Cursor) : ∃ ss, c.scan = c.next :: ss := by
  rw [scan_eq]
  split
  · exact ⟨_, rfl⟩
  · exact ⟨_, rfl⟩

/-- Every token but the end of the text takes a character. -/
theorem length_scan (c : Cursor) : c.scan.length ≤ c.rest.length + 1 := by
  induction hlength : c.rest.length using Nat.strongRecOn generalizing c with
  | _ length ih =>
    rw [scan_eq]
    split
    · simp
    · rename_i hlexeme
      have hshort := length_next c.position c.rest hlexeme
      have hrest := ih _ (hlength ▸ hshort) c.next.after rfl
      simp only [List.length_cons]
      change c.next.after.rest.length < c.rest.length at hshort
      omega

end Cursor

/-! ## Lines -/

namespace Source

/-- The tokens of a line with the one that ends it, and the faults inside tokens that become known
while the line is read. -/
structure Line where
  tokens : List Token
  faults : List (Position × LexError)

/-- How many tokens scanning is ahead of reading. -/
def lookahead : Nat := 2

/-- Splits tokens behind the first that ends a line. -/
def splitLine : List Scanned → List Scanned × List Scanned
  | [] => ([], [])
  | s :: rest =>
    if s.token.lexeme.isLineEnd then ([s], rest)
    else
      let (line, rest) := splitLine rest
      (s :: line, rest)

/-- The faults inside some tokens, in order. -/
def faultsOf (ss : List Scanned) : List (Position × LexError) :=
  ss.flatMap (·.errors)

/-- The lines that some tokens make, at most `fuel` of them. The faults of the first `known` tokens
are known already. The end of the file is not a line by itself. -/
def linesFrom (known : Nat) : Nat → List Scanned → List Line
  | 0, _ => []
  | fuel + 1, ss =>
    match ss with
    | [] => []
    | s :: _ =>
      if s.token.lexeme = .endOfFile then []
      else
        let (line, rest) := splitLine ss
        let fresh := (line ++ rest.take lookahead).drop known
        ⟨line.map (·.token), faultsOf fresh⟩ :: linesFrom lookahead fuel rest

/-- The lines of a text. -/
def lines (text : List Char) : List Line :=
  let tokens := Token.scan text
  linesFrom 0 tokens.length tokens

theorem splitLine_append (ss : List Scanned) : (splitLine ss).1 ++ (splitLine ss).2 = ss := by
  induction ss with
  | nil => rfl
  | cons s ss ih =>
    simp only [splitLine]
    split
    · rfl
    · exact congrArg (s :: ·) ih

theorem exists_splitLine (s : Scanned) (ss : List Scanned) :
    ∃ line, (splitLine (s :: ss)).1 = s :: line := by
  simp only [splitLine]
  split
  · exact ⟨[], rfl⟩
  · exact ⟨_, rfl⟩

theorem length_splitLine (s : Scanned) (ss : List Scanned) :
    (splitLine (s :: ss)).2.length ≤ ss.length := by
  obtain ⟨line, hline⟩ := exists_splitLine s ss
  have hlength := congrArg List.length (splitLine_append (s :: ss))
  simp only [hline, List.length_append, List.length_cons] at hlength
  omega

end Source
end Assembler6502
