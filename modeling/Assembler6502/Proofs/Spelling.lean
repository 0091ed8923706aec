import Assembler6502.Proofs.TokenLines

/-!
# Spelling

How a text is put together from tokens. Words stand next to marks, blanks or the ends of lines, so
each of them is read to its end and no further. A string literal ends at its own quote, as a quote
inside it stands behind a backslash. Scanning a text that is spelled in this way gives the tokens of
the spelling, without a fault, and its lines are the lines of the spelling.

## Main definitions

* `Cursor.IsWord`: what is scanned as one word
* `Text.quoted`: a text as a string literal
* `Token.Spells`: what some tokens can look like

## Main results

* `Token.scanFrom_of_spells`: scanning gives back the tokens that were spelled
* `Source.lines_of_spells`, `Source.lines_of_spells_line`: the lines of a text are the lines that
  were spelled
-/

namespace Assembler6502

@[simp] theorem Lexeme.isLineEnd_mark (p : Punctuation) : (mark p).isLineEnd = false := rfl

@[simp] theorem Lexeme.isLineEnd_identifier (name : String) :
    (identifier name).isLineEnd = false := rfl

namespace Text

/-- A character inside a string literal. Quotes and backslashes stand behind a backslash. -/
def escaped (x : Char) : List Char :=
  if x = '"' ∨ x = '\\' then ['\\', x] else [x]

/-- A text as a string literal. -/
def quoted (text : List Char) : List Char :=
  '"' :: text.flatMap escaped ++ ['"']

end Text

namespace Cursor

/-- A word is not empty, has only characters of words and does not start with a dot. -/
def IsWord (word : List Char) : Bool :=
  word.all isWordChar && word.head?.any (· != '.')

/-- Whether a word ends before some characters. -/
def EndsWord (rest : List Char) : Bool :=
  !rest.head?.any isWordChar

variable {p : Position} {x : Char} {rest : List Char}

theorem isWord_cons : IsWord (x :: rest) = true ↔
    isWordChar x = true ∧ x ≠ '.' ∧ rest.all isWordChar = true := by
  simp [IsWord, and_comm, and_left_comm]

/-! ## The next token -/

/-- Nothing is skipped where a token starts. -/
theorem skipToToken_of_token (hblank : Text.isBlank x = false ∨ x = '\n') (hcomment : x ≠ ';') :
    skipToToken ⟨p, x :: rest⟩ = ⟨p, x :: rest⟩ := by
  have hskip : skipBlanks ⟨p, x :: rest⟩ = ⟨p, x :: rest⟩ := by
    have hx : (Text.isBlank x && x != '\n') = false := by
      obtain h | rfl := hblank
      · simp [h]
      · simp
    simp [skipBlanks, skipWhile, hx, Position.pastAll]
  simp only [skipToToken, hskip]
  split
  · rename_i heq
    exact absurd (List.cons.inj heq).1 hcomment
  · rfl

theorem next_nil : next ⟨p, []⟩ = ⟨⟨.endOfFile, p⟩, [], ⟨p, []⟩⟩ := rfl

theorem next_blank : next ⟨p, ' ' :: rest⟩ = next ⟨p.past ' ', rest⟩ := by
  have hskip : skipBlanks ⟨p, ' ' :: rest⟩ = skipBlanks ⟨p.past ' ', rest⟩ := rfl
  simp only [next, skipToToken, hskip]

theorem next_newline : next ⟨p, '\n' :: rest⟩ = ⟨⟨.endOfLine, p⟩, [], ⟨p.past '\n', rest⟩⟩ := by
  simp [next, skipToToken_of_token (.inr rfl) (by decide), pop]

theorem next_mark (mark : Punctuation) :
    next ⟨p, mark.toChar :: rest⟩ = ⟨⟨.mark mark, p⟩, [], ⟨p.past mark.toChar, rest⟩⟩ := by
  have hskip : skipToToken ⟨p, mark.toChar :: rest⟩ = ⟨p, mark.toChar :: rest⟩ :=
    skipToToken_of_token (.inl (by cases mark <;> decide)) (by cases mark <;> decide)
  have hnewline : mark.toChar ≠ '\n' := by cases mark <;> decide
  have hquote : mark.toChar ≠ '"' := by cases mark <;> decide
  have hmark : Punctuation.ofChar? mark.toChar = some mark := by cases mark <;> rfl
  simp only [next, hskip, hnewline, hquote, hmark, if_false, pop]

theorem takeWhile_isWordChar {word : List Char} (hword : word.all isWordChar = true)
    (hrest : EndsWord rest = true) :
    (word ++ rest).takeWhile isWordChar = word ∧ (word ++ rest).dropWhile isWordChar = rest := by
  rw [List.all_eq_true] at hword
  rw [List.takeWhile_append_of_pos hword, List.dropWhile_append_of_pos hword]
  cases rest with
  | nil => simp
  | cons x rest =>
    have hx : isWordChar x = false := by simpa [EndsWord] using hrest
    simp [hx]

theorem next_word {word : List Char} (hword : IsWord word = true) (hrest : EndsWord rest = true) :
    next ⟨p, word ++ rest⟩ = ⟨⟨classify word, p⟩, [], ⟨p.pastAll word, rest⟩⟩ := by
  cases word with
  | nil => simp [IsWord] at hword
  | cons x word =>
    obtain ⟨hx, hdot, hall⟩ := isWord_cons.1 hword
    have hchars : (x :: word).all isWordChar = true := by simp [hx, hall]
    obtain ⟨htake, hdrop⟩ := takeWhile_isWordChar hchars hrest
    simp only [isWordChar, Bool.and_eq_true, Bool.or_eq_true, bne_iff_ne, beq_iff_eq,
      Bool.not_eq_true', Option.isNone_iff_eq_none] at hx
    obtain ⟨⟨⟨hblank, hcomment⟩, hquote⟩, hmark⟩ := hx
    have hnewline : x ≠ '\n' := by
      rintro rfl
      exact absurd hblank (by decide)
    have hskip : skipToToken ⟨p, x :: (word ++ rest)⟩ = ⟨p, x :: (word ++ rest)⟩ :=
      skipToToken_of_token (.inl hblank) hcomment
    rw [List.cons_append] at htake hdrop ⊢
    simp only [next, hskip, hnewline, hquote, hmark.resolve_left hdot, if_false, skipWhile, htake,
      hdrop]

/-- The body of a string literal is read up to the closing quote. -/
theorem stringBody_escaped {text : List Char} (h : '\n' ∉ text) :
    ∃ q, stringBody p (text.flatMap Text.escaped ++ '"' :: rest) = (text, [], ⟨q, rest⟩) := by
  induction text generalizing p with
  | nil =>
    refine ⟨p.past '"', ?_⟩
    rw [List.flatMap_nil, List.nil_append, stringBody.eq_def]
    rfl
  | cons x text ih =>
    obtain ⟨hx, htext⟩ := not_or.mp (mt List.mem_cons.mpr h)
    rw [List.flatMap_cons]
    -- A quote and a backslash stand behind a backslash, and anything else for itself.
    by_cases hescape : x = '"' ∨ x = '\\'
    · obtain ⟨q, hq⟩ := @ih ((p.past '\\').past x) htext
      refine ⟨q, ?_⟩
      rw [Text.escaped, if_pos hescape, stringBody.eq_def]
      simp [Ne.symm hx, hq]
    · obtain ⟨q, hq⟩ := @ih (p.past x) htext
      obtain ⟨hquote, hslash⟩ := not_or.mp hescape
      refine ⟨q, ?_⟩
      rw [Text.escaped, if_neg hescape, stringBody.eq_def]
      simp [hquote, hslash, Ne.symm hx, hq]

theorem next_quoted {text : List Char} (h : '\n' ∉ text) :
    ∃ q, next ⟨p, Text.quoted text ++ rest⟩ = ⟨⟨.string text, p⟩, [], ⟨q, rest⟩⟩ := by
  obtain ⟨q, hq⟩ : ∃ q, stringBody (p.past '"') (text.flatMap Text.escaped ++ '"' :: rest) =
      (text, [], ⟨q, rest⟩) := stringBody_escaped h
  have hskip : skipToToken ⟨p, '"' :: (text.flatMap Text.escaped ++ '"' :: rest)⟩ = _ :=
    skipToToken_of_token (.inl (by decide)) (by decide)
  refine ⟨q, ?_⟩
  simp [Text.quoted, next, hskip, hq]

end Cursor

/-! ## Tokens -/

namespace Token

/-- What some tokens can look like, with blanks between them. -/
inductive Spells : List Lexeme → List Char → Prop
  | nil : Spells [] []
  | blank {ls cs} (h : Spells ls cs) : Spells ls (' ' :: cs)
  | newline {ls cs} (h : Spells ls cs) : Spells (.endOfLine :: ls) ('\n' :: cs)
  | mark (p : Punctuation) {ls cs} (h : Spells ls cs) : Spells (.mark p :: ls) (p.toChar :: cs)
  | word {w ls cs} (hw : Cursor.IsWord w = true) (hend : Cursor.EndsWord cs = true)
      (h : Spells ls cs) : Spells (Cursor.classify w :: ls) (w ++ cs)
  | string {text ls cs} (htext : '\n' ∉ text) (h : Spells ls cs) :
      Spells (.string text :: ls) (Text.quoted text ++ cs)

theorem scanFrom_blank {fuel : Nat} {p : Position} {cs : List Char} :
    scanFrom fuel ⟨p, ' ' :: cs⟩ = scanFrom fuel ⟨p.past ' ', cs⟩ := by
  cases fuel with
  | zero => rfl
  | succ fuel => simp only [scanFrom, Cursor.next_blank]

theorem scanFrom_of_next {fuel : Nat} {c after : Cursor} {l : Lexeme} {p : Position}
    (hnext : c.next = ⟨⟨l, p⟩, [], after⟩) (hl : l ≠ .endOfFile) :
    scanFrom (fuel + 1) c = ⟨⟨l, p⟩, [], after⟩ :: scanFrom fuel after := by
  simp [scanFrom, hnext, hl]

/-- **Scanning gives back the tokens that were spelled**, without a fault. -/
theorem scanFrom_of_spells {ls : List Lexeme} {cs : List Char} (h : Spells ls cs) {fuel : Nat}
    {p : Position} (hfuel : cs.length < fuel) :
    (scanFrom fuel ⟨p, cs⟩).map (·.token.lexeme) = ls ++ [.endOfFile] ∧
      ∀ s ∈ scanFrom fuel ⟨p, cs⟩, s.errors = [] := by
  -- Every token takes a character, so the fuel lasts as long as there are characters.
  induction h generalizing fuel p with
  | nil =>
    obtain ⟨fuel, rfl⟩ : ∃ n, fuel = n + 1 := ⟨fuel - 1, by simp at hfuel; omega⟩
    simp [scanFrom, Cursor.next_nil]
  | blank h ih =>
    rw [scanFrom_blank]
    exact ih (Nat.lt_of_succ_lt hfuel)
  | newline h ih =>
    obtain ⟨fuel, rfl⟩ : ∃ n, fuel = n + 1 := ⟨fuel - 1, by omega⟩
    rw [scanFrom_of_next Cursor.next_newline (by simp)]
    simpa using ih (Nat.lt_of_succ_lt_succ hfuel)
  | mark mark h ih =>
    obtain ⟨fuel, rfl⟩ : ∃ n, fuel = n + 1 := ⟨fuel - 1, by omega⟩
    rw [scanFrom_of_next (Cursor.next_mark mark) (by simp)]
    simpa using ih (Nat.lt_of_succ_lt_succ hfuel)
  | @word w ls cs hw hend h ih =>
    have hpos : 0 < w.length := by
      cases w with
      | nil => simp [Cursor.IsWord] at hw
      | cons x w => simp
    obtain ⟨fuel, rfl⟩ : ∃ n, fuel = n + 1 := ⟨fuel - 1, by omega⟩
    have hl : Cursor.classify w ≠ .endOfFile := fun h => by
      simpa [h, Lexeme.isLineEnd] using Cursor.isLineEnd_classify w
    rw [scanFrom_of_next (Cursor.next_word hw hend) hl]
    have hshort : cs.length < fuel := by
      simp only [List.length_append] at hfuel
      omega
    simpa using ih hshort
  | @string text ls cs htext h ih =>
    obtain ⟨fuel, rfl⟩ : ∃ n, fuel = n + 1 := ⟨fuel - 1, by omega⟩
    obtain ⟨q, hq⟩ := @Cursor.next_quoted p cs text htext
    rw [scanFrom_of_next hq (by simp)]
    have hshort : cs.length < fuel := by
      simp only [Text.quoted, List.length_append, List.length_cons] at hfuel
      omega
    simpa using ih hshort

end Token

/-! ## Lines -/

namespace Source

/-- What some lines of tokens look like together. -/
def joined (lines : List (List Lexeme)) : List Lexeme :=
  lines.flatMap (· ++ [.endOfLine])

theorem length_le_joined (lines : List (List Lexeme)) : lines.length ≤ (joined lines).length := by
  induction lines with
  | nil => simp
  | cons line lines ih =>
    simp only [joined, List.flatMap_cons, List.length_append, List.length_cons,
      List.length_nil] at ih ⊢
    omega

variable {line rest : List Lexeme} {ss : List Scanned}

/-- Tokens are split behind the first that ends a line. -/
theorem splitLine_of_lexemes {last : Lexeme} (hline : ∀ l ∈ line, l.isLineEnd = false)
    (hlast : last.isLineEnd = true) (h : ss.map (·.token.lexeme) = line ++ last :: rest) :
    (splitLine ss).1.map (·.token.lexeme) = line ++ [last] ∧
      (splitLine ss).2.map (·.token.lexeme) = rest ∧
      (splitLine ss).1 ++ (splitLine ss).2 = ss := by
  induction line generalizing ss with
  | nil =>
    obtain ⟨s, ss, rfl, hs, hss⟩ := List.map_eq_cons_iff.1 h
    simp [splitLine, hs, hss, hlast]
  | cons l line ih =>
    obtain ⟨s, ss, rfl, hs, hss⟩ := List.map_eq_cons_iff.1 h
    have hl : s.token.lexeme.isLineEnd = false := hs ▸ hline l List.mem_cons_self
    obtain ⟨hfirst, hsecond, happend⟩ := ih (fun l hl => hline l (List.mem_cons_of_mem _ hl)) hss
    rw [splitLine, hl]
    simp [hs, hfirst, hsecond, happend]

/-- Lines of tokens without faults are found again. -/
theorem linesFrom_of_lexemes {lines : List (List Lexeme)} {known fuel : Nat}
    (hlines : ∀ line ∈ lines, ∀ l ∈ line, l.isLineEnd = false)
    (hss : ss.map (·.token.lexeme) = joined lines ++ [.endOfFile])
    (hfaults : ∀ s ∈ ss, s.errors = []) (hfuel : lines.length < fuel) :
    (linesFrom known fuel ss).map (·.tokens.map (·.lexeme)) = lines.map (· ++ [.endOfLine]) ∧
      ∀ line ∈ linesFrom known fuel ss, line.faults = [] := by
  induction lines generalizing ss known fuel with
  | nil =>
    obtain ⟨fuel, rfl⟩ : ∃ n, fuel = n + 1 := ⟨fuel - 1, by simp at hfuel; omega⟩
    obtain ⟨s, rest, rfl, hs, -⟩ := List.map_eq_cons_iff.1 hss
    simp [linesFrom, hs]
  | cons line lines ih =>
    obtain ⟨fuel, rfl⟩ : ∃ n, fuel = n + 1 := ⟨fuel - 1, by omega⟩
    rw [joined, List.flatMap_cons, List.append_assoc, List.append_assoc, List.singleton_append,
      ← joined] at hss
    obtain ⟨hfirst, hsecond, happend⟩ :=
      splitLine_of_lexemes (hlines line List.mem_cons_self) rfl hss
    have hfaults' : ∀ s ∈ (splitLine ss).1 ++ (splitLine ss).2, s.errors = [] := by
      rwa [happend]
    obtain ⟨hlexemes, hclean⟩ := @ih (splitLine ss).2 lookahead fuel
      (fun line hline => hlines line (List.mem_cons_of_mem _ hline)) hsecond
      (fun s hs => hfaults' s (List.mem_append_right _ hs)) (Nat.lt_of_succ_lt_succ hfuel)
    -- The first token of a line is not the end of the text, so there is a line.
    obtain ⟨s, rest, rfl, hs⟩ : ∃ s rest, ss = s :: rest ∧ s.token.lexeme ≠ .endOfFile := by
      cases line with
      | nil =>
        obtain ⟨s, rest, rfl, hs, -⟩ := List.map_eq_cons_iff.1 hss
        exact ⟨s, rest, rfl, by simp [hs]⟩
      | cons l line =>
        obtain ⟨s, rest, rfl, hs, -⟩ := List.map_eq_cons_iff.1 hss
        have hl := hlines (l :: line) List.mem_cons_self l List.mem_cons_self
        refine ⟨s, rest, rfl, ?_⟩
        rintro heq
        rw [← hs, heq] at hl
        cases hl
    have hfresh : faultsOf (((splitLine (s :: rest)).1 ++
        (splitLine (s :: rest)).2.take lookahead).drop known) = [] := by
      refine List.flatMap_eq_nil_iff.2 fun t ht => hfaults' t ?_
      rcases List.mem_append.1 (List.mem_of_mem_drop ht) with ht | ht
      · exact List.mem_append_left _ ht
      · exact List.mem_append_right _ (List.mem_of_mem_take ht)
    have hline : ((splitLine (s :: rest)).1.map (·.token)).map (·.lexeme) =
        line ++ [.endOfLine] := by
      rw [List.map_map]
      exact hfirst
    simp only [linesFrom, hs, if_false, List.map_cons, hline, hlexemes, hfresh]
    exact ⟨trivial, by simpa using hclean⟩

/-- **The lines of a text are the lines that were spelled**, without a fault. -/
theorem lines_of_spells {lines : List (List Lexeme)} {text : List Char}
    (hlines : ∀ line ∈ lines, ∀ l ∈ line, l.isLineEnd = false)
    (h : Token.Spells (joined lines) text) :
    (Source.lines text).map (·.tokens.map (·.lexeme)) = lines.map (· ++ [.endOfLine]) ∧
      ∀ line ∈ Source.lines text, line.faults = [] := by
  obtain ⟨hlexemes, hfaults⟩ :=
    Token.scanFrom_of_spells h (p := .start) (Nat.lt_add_one text.length)
  refine linesFrom_of_lexemes hlines hlexemes hfaults ?_
  have hlength := congrArg List.length hlexemes
  have hcount := length_le_joined lines
  simp only [List.length_map, List.length_append, List.length_singleton] at hlength
  simp only [Token.scan, Cursor.ofText]
  omega

/-- Tokens before the end of the text are one line. -/
theorem linesFrom_of_line {known fuel : Nat} (hline : ∀ l ∈ line, l.isLineEnd = false)
    (hne : line ≠ []) (hss : ss.map (·.token.lexeme) = line ++ [.endOfFile])
    (hfaults : ∀ s ∈ ss, s.errors = []) :
    linesFrom known (fuel + 1) ss = [⟨ss.map (·.token), []⟩] := by
  obtain ⟨-, hrest, happend⟩ := splitLine_of_lexemes hline rfl hss
  obtain ⟨l, ls, rfl⟩ := List.exists_cons_of_ne_nil hne
  obtain ⟨s, ss, rfl, hs, -⟩ := List.map_eq_cons_iff.1 hss
  have hl : s.token.lexeme ≠ .endOfFile := by
    intro heq
    rw [← hs, heq] at hline
    cases hline _ List.mem_cons_self
  rw [List.map_eq_nil_iff] at hrest
  rw [hrest, List.append_nil] at happend
  have hfresh : faultsOf ((s :: ss).drop known) = [] :=
    List.flatMap_eq_nil_iff.2 fun t ht => hfaults t (List.mem_of_mem_drop ht)
  simp only [linesFrom, hl, if_false, happend, hrest, List.take_nil, List.append_nil, hfresh]
  cases fuel <;> rfl

/-- **A text without the end of a line is one line**, without a fault. -/
theorem lines_of_spells_line {text : List Char} (hline : ∀ l ∈ line, l.isLineEnd = false)
    (hne : line ≠ []) (h : Token.Spells line text) :
    ∃ tokens, lines text = [⟨tokens, []⟩] ∧ tokens.map (·.lexeme) = line ++ [.endOfFile] := by
  obtain ⟨hlexemes, hfaults⟩ :=
    Token.scanFrom_of_spells h (p := .start) (Nat.lt_add_one text.length)
  refine ⟨(Token.scan text).map (·.token), ?_, by rw [List.map_map]; exact hlexemes⟩
  have hlength := congrArg List.length hlexemes
  simp only [List.length_map, List.length_append, List.length_singleton] at hlength
  simp only [lines, Token.scan, Cursor.ofText, hlength]
  exact linesFrom_of_line hline hne hlexemes hfaults

end Source
end Assembler6502
