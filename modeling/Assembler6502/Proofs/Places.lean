import Mathlib.Data.List.Induction
import Assembler6502.Proofs.PhysicalLines

/-!
# Where tokens stand

Scanning goes through a text from its beginning to its end. Each call skips blanks and perhaps a
comment, takes the characters of one token and leaves the rest, so what was skipped and taken so far
is always the beginning of the text. A token therefore stands where its first character stands, and
that is found by counting the ends of lines before it and the characters since the last of them.

## Main definitions

* `Position.behind`: the place behind some characters, by counting them
* `Text.IsGap`, `Lexeme.Written`: what is skipped, and what a token is written with
* `Cursor.Reads`: what one call skips and takes
* `Cursor.afterTokens`: the place after some calls

## Main results

* `Cursor.exists_reads`: what every call skips and takes
* `Cursor.exists_endOfFile`: a run comes to the end of the text and stays there
* `Cursor.tokens_keep_place`: scanning makes progress and keeps its place
-/

namespace Assembler6502

namespace Position

/-- The place behind some characters at the beginning of a text: the ends of lines among them, and
the characters since the last one. -/
def behind (before : List Char) : Position :=
  ⟨1 + before.count '\n', 1 + (before.reverse.takeWhile (· != '\n')).length⟩

theorem pastAll_append (p : Position) (cs ds : List Char) :
    p.pastAll (cs ++ ds) = (p.pastAll cs).pastAll ds :=
  List.foldl_append

/-- **Moving past characters counts them.** -/
theorem pastAll_start (before : List Char) : start.pastAll before = behind before := by
  induction before using List.reverseRecOn with
  | nil => rfl
  | append_singleton before x ih =>
    rw [pastAll_append, ih]
    show (behind before).past x = _
    by_cases hx : x = '\n'
    · subst hx
      simp [past, behind, Nat.add_assoc]
    · simp [past, behind, hx, Nat.add_assoc]

end Position

/-! ## What a call skips and takes -/

theorem Punctuation.toChar_of_ofChar {x : Char} {mark : Punctuation} (h : ofChar? x = some mark) :
    mark.toChar = x := by
  unfold ofChar? at h
  split at h <;> cases h <;> rfl

/-- Blanks within a line, and perhaps a comment behind them. -/
def Text.IsGap (cs : List Char) : Prop :=
  '\n' ∉ cs ∧ ∀ x ∈ cs.takeWhile (· != ';'), Text.isBlank x = true

theorem Text.isGap_of_blank {cs : List Char} (h : ∀ x ∈ cs, Text.isBlank x = true ∧ x ≠ '\n') :
    Text.IsGap cs := by
  refine ⟨fun hx => (h _ hx).2 rfl, fun x hx => (h x ?_).1⟩
  exact (List.takeWhile_sublist _).subset hx

theorem Text.isGap_comment {cs comment : List Char}
    (h : ∀ x ∈ cs, Text.isBlank x = true ∧ x ≠ '\n') (hcomment : '\n' ∉ ';' :: comment) :
    Text.IsGap (cs ++ ';' :: comment) := by
  refine ⟨fun hx => ?_, fun x hx => ?_⟩
  · rcases List.mem_append.mp hx with hx | hx
    · exact (h _ hx).2 rfl
    · exact hcomment hx
  · -- No blank is a semicolon, so the blanks are what stands before the first one.
    have hsemicolon : ∀ x ∈ cs, (x != ';') = true := by
      intro x hx
      rw [bne_iff_ne]
      rintro rfl
      exact absurd (h _ hx).1 (by decide)
    rw [List.takeWhile_append_of_pos hsemicolon] at hx
    exact (h x (by simpa using hx)).1

/-- What a string literal is written with, behind its opening quote. At the end of its line it may
be cut off. -/
inductive Text.Body : List Char → List Char → Prop
  | closed : Body [] ['"']
  | cut : Body [] []
  | cutBackslash : Body [] ['\\']
  | backslash {text cs x} (hx : x ≠ '\n') (h : Body text cs) : Body (x :: text) ('\\' :: x :: cs)
  | plain {text cs x} (hx : x ≠ '\n' ∧ x ≠ '"' ∧ x ≠ '\\') (h : Body text cs) :
      Body (x :: text) (x :: cs)

/-- The characters that a token is written with. -/
inductive Lexeme.Written : Lexeme → List Char → Prop
  | endOfFile : Written .endOfFile []
  | endOfLine : Written .endOfLine ['\n']
  | mark (p : Punctuation) : Written (.mark p) [p.toChar]
  | word {cs} (h : Cursor.IsWord cs = true) : Written (Cursor.classify cs) cs
  | string {text cs} (h : Text.Body text cs) : Written (.string text) ('"' :: cs)

theorem Text.Body.newline {text cs : List Char} (h : Body text cs) : '\n' ∉ cs := by
  induction h with
  | closed | cut | cutBackslash => decide
  | backslash hx h ih => simp [Ne.symm hx, ih]
  | plain hx h ih => simp [Ne.symm hx.1, ih]

/-- A token is written with a character, unless it is the end of the text. -/
theorem Lexeme.Written.ne_nil {l : Lexeme} {cs : List Char} (h : l.Written cs)
    (hl : l ≠ .endOfFile) : cs ≠ [] := by
  cases h with
  | endOfFile => exact absurd rfl hl
  | word h =>
    rintro rfl
    cases h
  | endOfLine | mark | string => exact List.cons_ne_nil _ _

/-- Only the end of a line is written with an end of a line. -/
theorem Lexeme.Written.count_newline {l : Lexeme} {cs : List Char} (h : l.Written cs) :
    cs.count '\n' = if l = .endOfLine then 1 else 0 := by
  cases h with
  | endOfFile | endOfLine => rfl
  | mark p => cases p <;> decide
  | word h =>
    rw [if_neg (Cursor.classify_ne cs rfl), List.count_eq_zero]
    intro hmem
    rw [Cursor.IsWord, Bool.and_eq_true, List.all_eq_true] at h
    exact absurd (h.1 _ hmem) (by decide)
  | string h =>
    rw [if_neg (by simp), List.count_eq_zero, List.mem_cons, not_or]
    exact ⟨by decide, h.newline⟩

namespace Cursor

/-- What one call skips and takes. Behind a comment there is the end of the line or of the text. -/
structure Reads (c : Cursor) (gap taken : List Char) : Prop where
  rest : c.rest = gap ++ (taken ++ c.next.after.rest)
  isGap : Text.IsGap gap
  comment : ';' ∈ gap → c.next.token.lexeme.isLineEnd = true
  written : c.next.token.lexeme.Written taken
  position : c.next.token.position = c.position.pastAll gap
  after : c.next.after.position = c.position.pastAll (gap ++ taken)

variable {c : Cursor}

/-- Blanks and perhaps a comment are skipped. -/
theorem exists_gap (c : Cursor) : ∃ gap, c.rest = gap ++ c.skipToToken.rest ∧ Text.IsGap gap ∧
    c.skipToToken.position = c.position.pastAll gap ∧
    (';' ∈ gap → c.skipToToken.rest.head?.all (· = '\n') = true) := by
  obtain ⟨p, cs⟩ := c
  have hsplit := List.takeWhile_append_dropWhile (p := fun x => Text.isBlank x && x != '\n')
    (l := cs)
  have hblanks : ∀ x ∈ cs.takeWhile fun x => Text.isBlank x && x != '\n',
      Text.isBlank x = true ∧ x ≠ '\n' := by
    intro x hx
    simpa using List.all_eq_true.mp List.all_takeWhile x hx
  simp only [skipToToken, skipBlanks, skipWhile]
  generalize (cs.takeWhile fun x => Text.isBlank x && x != '\n') = blanks at hsplit hblanks ⊢
  generalize (cs.dropWhile fun x => Text.isBlank x && x != '\n') = rest at hsplit ⊢
  split
  · -- A comment leads to the end of its line.
    rename_i tail
    have htail : '\n' ∉ (';' :: tail).takeWhile (· != '\n') := by
      intro hx
      simpa using List.all_eq_true.mp List.all_takeWhile _ hx
    refine ⟨blanks ++ (';' :: tail).takeWhile (· != '\n'), ?_, Text.isGap_comment hblanks htail,
      ?_, ?_⟩
    · rw [List.append_assoc, List.takeWhile_append_dropWhile, hsplit]
    · exact (Position.pastAll_append _ _ _).symm
    · intro _
      have hhead := List.head?_dropWhile_not (· != '\n') (';' :: tail)
      generalize ((';' :: tail).dropWhile (· != '\n')).head? = head at hhead ⊢
      cases head with
      | none => rfl
      | some x => simpa using hhead
  · refine ⟨blanks, hsplit.symm, Text.isGap_of_blank hblanks, rfl, fun h => ?_⟩
    exact absurd (hblanks _ h).1 (by decide)

/-- The body of a string literal is taken up to its end. -/
theorem exists_body (p : Position) (cs : List Char) :
    ∃ taken, cs = taken ++ (stringBody p cs).2.2.rest ∧ Text.Body (stringBody p cs).1 taken ∧
      (stringBody p cs).2.2.position = p.pastAll taken := by
  fun_induction stringBody p cs with
  | case1 p | case2 p rest => exact ⟨[], rfl, .cut, rfl⟩
  | case3 p rest _ => exact ⟨['"'], rfl, .closed, rfl⟩
  | case4 p _ _ | case5 p rest _ _ => exact ⟨['\\'], rfl, .cutBackslash, rfl⟩
  | case6 p y rest hy body errors after _ _ hbody ih =>
    rw [hbody] at ih
    obtain ⟨taken, hrest, htext, hposition⟩ := ih
    exact ⟨'\\' :: y :: taken, by simp [← hrest], .backslash hy htext, hposition⟩
  | case7 p x rest hnewline hquote hbackslash body errors after hbody ih =>
    rw [hbody] at ih
    obtain ⟨taken, hrest, htext, hposition⟩ := ih
    exact ⟨x :: taken, by simp [← hrest], .plain ⟨hnewline, hquote, hbackslash⟩ htext, hposition⟩

theorem skipToToken_skipToToken (c : Cursor) : c.skipToToken.skipToToken = c.skipToToken := by
  have hstart := @skipToToken_cons c.position c.rest
  generalize c.skipToToken = d at hstart ⊢
  obtain ⟨p, rest⟩ := d
  cases rest with
  | nil => rfl
  | cons x rest => exact skipToToken_of_token (hstart rfl).1 (hstart rfl).2

theorem next_skipToToken (c : Cursor) : c.skipToToken.next = c.next := by
  simp only [next, skipToToken_skipToToken]

/-- Where a token starts, its characters are taken. -/
theorem exists_taken (h : c.skipToToken = c) : ∃ taken, c.rest = taken ++ c.next.after.rest ∧
    c.next.token.lexeme.Written taken ∧ c.next.token.position = c.position ∧
    c.next.after.position = c.position.pastAll taken := by
  have hstart := @skipToToken_cons c.position c.rest
  simp only [next, h] at hstart ⊢
  obtain ⟨p, rest⟩ := c
  cases rest with
  | nil => exact ⟨[], rfl, .endOfFile, rfl, rfl⟩
  | cons x rest =>
    obtain ⟨hblank, hcomment⟩ := hstart rfl
    dsimp only
    split
    · rename_i hnewline
      subst hnewline
      exact ⟨['\n'], rfl, .endOfLine, rfl, rfl⟩
    · rename_i hnewline
      split
      · rename_i hquote
        subst hquote
        obtain ⟨taken, hrest, htext, hposition⟩ := exists_body (p.past '"') rest
        exact ⟨'"' :: taken, congrArg ('"' :: ·) hrest, .string htext, rfl, hposition⟩
      · rename_i hquote
        cases hmark : Punctuation.ofChar? x with
        | some mark =>
          obtain rfl := Punctuation.toChar_of_ofChar hmark
          exact ⟨[mark.toChar], rfl, .mark mark, rfl, rfl⟩
        | none =>
          refine ⟨(x :: rest).takeWhile isWordChar, ?_, .word ?_, rfl, rfl⟩
          · exact List.takeWhile_append_dropWhile.symm
          · -- A dot is a mark, so the word does not start with one.
            have hword : isWordChar x = true := by
              simp [isWordChar, hblank.resolve_right hnewline, hcomment, hquote, hmark]
            rw [List.takeWhile_cons_of_pos hword, isWord_cons]
            refine ⟨hword, ?_, List.all_takeWhile⟩
            rintro rfl
            cases hmark

/-- Behind a comment there is the end of a line or of the text. -/
theorem isLineEnd_of_head (h : c.rest.head?.all (· = '\n') = true) :
    c.next.token.lexeme.isLineEnd = true := by
  obtain ⟨p, rest⟩ := c
  cases rest with
  | nil => rfl
  | cons x rest =>
    obtain rfl : x = '\n' := by simpa using h
    rw [next_newline]
    rfl

/-- **What every call skips and takes.** -/
theorem exists_reads (c : Cursor) : ∃ gap taken, c.Reads gap taken := by
  obtain ⟨gap, hrest, hgap, hposition, hcomment⟩ := exists_gap c
  obtain ⟨taken, htaken, hwritten, htoken, hafter⟩ := exists_taken (skipToToken_skipToToken c)
  have hline := @isLineEnd_of_head c.skipToToken
  rw [next_skipToToken] at htaken hwritten htoken hafter hline
  refine ⟨gap, taken, ?_, hgap, fun h => hline (hcomment h), hwritten, ?_, ?_⟩
  · rw [hrest, htaken]
  · rw [htoken, hposition]
  · rw [hafter, hposition, Position.pastAll_append]

theorem Reads.progress {gap taken : List Char} (h : c.Reads gap taken)
    (hlexeme : c.next.token.lexeme ≠ .endOfFile) :
    c.next.after.rest.length < c.rest.length := by
  have htaken := List.length_pos_iff.mpr (h.written.ne_nil hlexeme)
  rw [h.rest, List.length_append, List.length_append]
  omega

theorem Reads.count_newline {gap taken : List Char} (h : c.Reads gap taken) :
    c.rest.count '\n' = (if c.next.token.lexeme = .endOfLine then 1 else 0) +
      c.next.after.rest.count '\n' := by
  rw [h.rest, List.count_append, List.count_append, h.written.count_newline,
    List.count_eq_zero.mpr h.isGap.1, Nat.zero_add]

/-! ## Runs -/

/-- The place after some calls. -/
def afterTokens (c : Cursor) : Nat → Cursor
  | 0 => c
  | calls + 1 => (c.afterTokens calls).next.after

theorem afterTokens_succ (c : Cursor) (calls : Nat) :
    c.afterTokens (calls + 1) = c.next.after.afterTokens calls := by
  induction calls with
  | zero => rfl
  | succ calls ih =>
    show (c.afterTokens (calls + 1)).next.after = _
    rw [ih]
    rfl

/-- **A run keeps its place**: what is left is the end of the text, and the position is that behind
what is not left. -/
theorem exists_before (text : List Char) (calls : Nat) :
    ∃ before, text = before ++ ((ofText text).afterTokens calls).rest ∧
      ((ofText text).afterTokens calls).position = Position.behind before := by
  induction calls with
  | zero => exact ⟨[], rfl, rfl⟩
  | succ calls ih =>
    obtain ⟨before, htext, hposition⟩ := ih
    obtain ⟨gap, taken, hreads⟩ := exists_reads ((ofText text).afterTokens calls)
    refine ⟨before ++ (gap ++ taken), ?_, ?_⟩
    · conv_lhs => rw [htext, hreads.rest]
      simp only [afterTokens, List.append_assoc]
    · show ((ofText text).afterTokens calls).next.after.position = _
      rw [hreads.after, hposition, ← Position.pastAll_start, ← Position.pastAll_append,
        Position.pastAll_start]

theorem afterTokens_nil (p : Position) (calls : Nat) : (mk p []).afterTokens calls = ⟨p, []⟩ := by
  induction calls with
  | zero => rfl
  | succ calls ih => rw [afterTokens, ih, next_nil]

/-- The end of the text is met again and again. -/
theorem endOfFile_forever (h : c.next.token.lexeme = .endOfFile) (calls : Nat) :
    (c.afterTokens calls).next.token.lexeme = .endOfFile := by
  cases calls with
  | zero => exact h
  | succ calls =>
    have hrest := rest_of_endOfFile h
    rw [afterTokens_succ]
    generalize c.next.after = d at hrest ⊢
    obtain ⟨p, rest⟩ := d
    obtain rfl : rest = [] := hrest
    rw [afterTokens_nil, next_nil]

/-- The tokens of the first calls. -/
def firstTokens (c : Cursor) (calls : Nat) : List Scanned :=
  (List.range calls).map fun i => (c.afterTokens i).next

theorem firstTokens_succ (c : Cursor) (calls : Nat) :
    c.firstTokens (calls + 1) = c.next :: c.next.after.firstTokens calls := by
  simp only [firstTokens, List.range_succ_eq_map, List.map_cons, List.map_map, Function.comp_def,
    afterTokens_succ]
  rfl

/-- **A run comes to the end of the text** after at most as many tokens as there are characters. Its
tokens are those that are scanned, and the ends of lines among them are those of the text. -/
theorem exists_endOfFile (c : Cursor) : ∃ calls ≤ c.rest.length,
    (∀ s ∈ c.firstTokens calls, s.token.lexeme ≠ .endOfFile) ∧
      (∀ i, (c.afterTokens (calls + i)).next.token.lexeme = .endOfFile) ∧
      (c.firstTokens calls).countP (·.token.lexeme = .endOfLine) = c.rest.count '\n' ∧
      c.scan = c.firstTokens (calls + 1) := by
  -- By induction on the characters that are left, since a call that goes on takes one.
  induction hlength : c.rest.length using Nat.strongRecOn generalizing c with
  | _ length ih =>
    obtain ⟨gap, taken, hreads⟩ := exists_reads c
    have hcount := hreads.count_newline
    by_cases hlexeme : c.next.token.lexeme = .endOfFile
    · refine ⟨0, Nat.zero_le _, by simp [firstTokens], fun i => ?_, ?_, ?_⟩
      · rw [Nat.zero_add]
        exact endOfFile_forever hlexeme i
      · rw [rest_of_endOfFile hlexeme, hlexeme] at hcount
        exact hcount.symm
      · rw [scan_eq, if_pos hlexeme]
        rfl
    · have hprogress := hreads.progress hlexeme
      obtain ⟨calls, hcalls, hothers, hend, hlines, hscan⟩ := ih _ (hlength ▸ hprogress) _ rfl
      refine ⟨calls + 1, by omega, ?_, fun i => ?_, ?_, ?_⟩
      · rw [firstTokens_succ, List.forall_mem_cons]
        exact ⟨hlexeme, hothers⟩
      · rw [Nat.add_right_comm, afterTokens_succ]
        exact hend i
      · rw [firstTokens_succ, List.countP_cons, hlines, hcount, Nat.add_comm]
        simp
      · rw [scan_eq, if_neg hlexeme, hscan, ← firstTokens_succ]

/-- **Scanning makes progress and keeps its place.** A call that does not give the end of the text
takes at least one character. So the end comes after at most as many other tokens as there are
characters, and then again and again. There is one end of a line among the tokens for each in the
text, and every token stands at its first character, behind what was taken and skipped before. -/
theorem tokens_keep_place (text : List Char) :
    let place (calls : Nat) := (ofText text).afterTokens calls
    let tokenAt (calls : Nat) := (place calls).next.token
    (∀ i, (tokenAt i).lexeme ≠ .endOfFile →
        (place (i + 1)).rest.length < (place i).rest.length) ∧
      (∃ n ≤ text.length, (∀ i < n, (tokenAt i).lexeme ≠ .endOfFile) ∧
        (∀ i ≥ n, (tokenAt i).lexeme = .endOfFile) ∧
        (List.range n).countP (fun i => (tokenAt i).lexeme = .endOfLine) = text.count '\n' ∧
        (Token.scan text).map (·.token) = (List.range (n + 1)).map tokenAt) ∧
      ∀ i, ∃ before gap taken,
        text = before ++ (place i).rest ∧ (place i).Reads gap taken ∧
          (tokenAt i).position = ⟨1 + (before ++ gap).count '\n',
            1 + ((before ++ gap).reverse.takeWhile (· != '\n')).length⟩ := by
  intro place tokenAt
  refine ⟨fun i hlexeme => ?_, ?_, fun i => ?_⟩
  · obtain ⟨gap, taken, hreads⟩ := exists_reads (place i)
    exact hreads.progress hlexeme
  · obtain ⟨n, hn, hothers, hend, hlines, hscan⟩ := exists_endOfFile (ofText text)
    refine ⟨n, hn, fun i hi => ?_, fun i hi => ?_, ?_, ?_⟩
    · exact hothers _ (List.mem_map.mpr ⟨i, List.mem_range.mpr hi, rfl⟩)
    · obtain ⟨k, rfl⟩ := Nat.exists_eq_add_of_le hi
      exact hend k
    · rw [firstTokens, List.countP_map] at hlines
      exact hlines
    · have hall : Token.scan text = (ofText text).firstTokens (n + 1) := hscan
      rw [hall, firstTokens, List.map_map]
      rfl
  · obtain ⟨before, htext, hposition⟩ := exists_before text i
    obtain ⟨gap, taken, hreads⟩ := exists_reads (place i)
    refine ⟨before, gap, taken, htext, hreads, ?_⟩
    have hplace : (tokenAt i).position = (Position.start.pastAll before).pastAll gap := by
      rw [Position.pastAll_start, ← hposition]
      exact hreads.position
    rw [hplace, ← Position.pastAll_append, Position.pastAll_start]
    rfl

end Cursor

end Assembler6502
