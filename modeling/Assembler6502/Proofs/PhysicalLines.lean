import Assembler6502.Proofs.Scanning

/-!
# Lines of characters and lines of tokens

No token goes over the end of a line: blanks and words end there, a comment leads up to it, and a
string that is not closed is cut off. So scanning a line does not look behind it. The lines of
tokens that a text makes are those of its lines of characters, each scanned alone, from its first
column, up to the line on which the text ends with nothing but blanks and a comment.

## Main definitions

* `Cursor.followedBy`: a place on a line, with the end of the line and more text behind it
* `Source.physicalLines`: the lines of characters of a text
* `Source.lineTokens`: the tokens of a line, scanned alone
* `Source.reachedLines`: the lines before the end of the file

## Main results

* `Cursor.next_followedBy`: the next token of a line does not depend on what follows the line
* `Source.tokens_lines`: the lines of tokens are those of the lines of characters
-/

namespace Assembler6502

namespace Position

theorem line_past {p : Position} {c : Char} (h : c ≠ '\n') : (p.past c).line = p.line := by
  simp [past, h]

theorem past_newline (p : Position) : p.past '\n' = ⟨p.line + 1, 1⟩ := rfl

theorem line_pastAll {p : Position} {cs : List Char} (h : '\n' ∉ cs) :
    (p.pastAll cs).line = p.line := by
  induction cs generalizing p with
  | nil => rfl
  | cons c rest ih =>
    rw [List.mem_cons, not_or] at h
    exact (ih h.2).trans (line_past (Ne.symm h.1))

end Position

/-! ## The end of a line -/

namespace Cursor

variable {c : Cursor} {n : Nat} {tail : List Char}

/-- A place on a line, with nothing behind it but the rest of the line. -/
structure OnLine (n : Nat) (c : Cursor) : Prop where
  line : c.position.line = n
  newline : '\n' ∉ c.rest

/-- The place with the end of the line and more text behind it. -/
def followedBy (c : Cursor) (tail : List Char) : Cursor :=
  ⟨c.position, c.rest ++ '\n' :: tail⟩

theorem takeWhile_newline {q : Char → Bool} (hq : q '\n' = false) (cs tail : List Char) :
    (cs ++ '\n' :: tail).takeWhile q = cs.takeWhile q := by
  induction cs with
  | nil => simp [hq]
  | cons c rest ih => simp only [List.cons_append, List.takeWhile_cons, ih]

theorem dropWhile_newline {q : Char → Bool} (hq : q '\n' = false) (cs tail : List Char) :
    (cs ++ '\n' :: tail).dropWhile q = cs.dropWhile q ++ '\n' :: tail := by
  induction cs with
  | nil => simp [hq]
  | cons c rest ih =>
    simp only [List.cons_append, List.dropWhile_cons, ih]
    split <;> rfl

theorem skipWhile_followedBy {q : Char → Bool} (hq : q '\n' = false) (c : Cursor)
    (tail : List Char) : (c.followedBy tail).skipWhile q = (c.skipWhile q).followedBy tail := by
  simp only [followedBy, skipWhile, takeWhile_newline hq, dropWhile_newline hq]

theorem OnLine.skipWhile (h : c.OnLine n) (q : Char → Bool) : (c.skipWhile q).OnLine n := by
  refine ⟨?_, fun hmem => h.newline ((List.dropWhile_suffix q).subset hmem)⟩
  refine (Position.line_pastAll fun hmem => h.newline ?_).trans h.line
  exact (List.takeWhile_sublist q).subset hmem

theorem skipToToken_followedBy (c : Cursor) (tail : List Char) :
    (c.followedBy tail).skipToToken = c.skipToToken.followedBy tail := by
  have hblanks : (c.followedBy tail).skipBlanks = c.skipBlanks.followedBy tail :=
    skipWhile_followedBy (by decide) c tail
  simp only [skipToToken, hblanks]
  generalize c.skipBlanks = d
  obtain ⟨p, rest⟩ := d
  cases rest with
  | nil => rfl
  | cons x rest =>
    by_cases hx : x = ';'
    · subst hx
      exact skipWhile_followedBy (by decide) ⟨p, ';' :: rest⟩ tail
    · simp [followedBy, hx]

theorem OnLine.skipToToken (h : c.OnLine n) : c.skipToToken.OnLine n := by
  have hblanks : c.skipBlanks.OnLine n := h.skipWhile _
  simp only [Cursor.skipToToken]
  split
  · exact hblanks.skipWhile _
  · exact hblanks

/-- A string that is not closed is cut off at the end of the line. -/
theorem stringBody_followedBy {cs : List Char} (h : '\n' ∉ cs) (p : Position) (tail : List Char) :
    stringBody p (cs ++ '\n' :: tail) =
      ((stringBody p cs).1, (stringBody p cs).2.1, (stringBody p cs).2.2.followedBy tail) := by
  -- A line break ends a body as the end of the text does, and can not be escaped.
  fun_induction stringBody p cs with
  | case1 p =>
    rw [List.nil_append, stringBody.eq_def]
    simp [followedBy]
  | case2 p rest => simp at h
  | case3 p rest hquote =>
    rw [List.cons_append, stringBody.eq_def]
    simp [followedBy]
  | case4 p hnewline hquote => simp [stringBody, followedBy]
  | case5 p rest hnewline hquote => simp at h
  | case6 p y rest hy body errors after _ _ hbody ih =>
    simp only [List.mem_cons, not_or] at h
    have htail := ih h.2.2
    rw [hbody] at htail
    simp [stringBody, hy, htail]
  | case7 p x rest hnewline hquote hbackslash body errors after hbody ih =>
    simp only [List.mem_cons, not_or] at h
    have htail := ih h.2
    rw [hbody] at htail
    rw [List.cons_append, stringBody.eq_def]
    simp [hnewline, hquote, hbackslash, htail]

theorem OnLine.stringBody {p : Position} {cs : List Char} (h : OnLine n ⟨p, cs⟩) :
    (Cursor.stringBody p cs).2.2.OnLine n := by
  obtain ⟨hline, hnewline⟩ := h
  -- No character that is taken ends the line, so positions stay on it.
  fun_induction Cursor.stringBody p cs with
  | case1 p => exact ⟨hline, hnewline⟩
  | case2 p rest => simp at hnewline
  | case3 p rest _ =>
    simp only [List.mem_cons, not_or] at hnewline
    exact ⟨(Position.line_past (by decide)).trans hline, hnewline.2⟩
  | case4 p _ _ => exact ⟨(Position.line_past (by decide)).trans hline, by simp⟩
  | case5 p rest _ _ => simp at hnewline
  | case6 p y rest hy body errors after _ _ hbody ih =>
    simp only [List.mem_cons, not_or] at hnewline
    have hafter := ih ((Position.line_past hy).trans ((Position.line_past (by decide)).trans hline))
      hnewline.2.2
    rwa [hbody] at hafter
  | case7 p x rest hx _ _ body errors after hbody ih =>
    simp only [List.mem_cons, not_or] at hnewline
    have hafter := ih ((Position.line_past hx).trans hline) hnewline.2
    rwa [hbody] at hafter

theorem OnLine.pop (h : c.OnLine n) : c.pop.OnLine n := by
  obtain ⟨p, rest⟩ := c
  cases rest with
  | nil => exact h
  | cons x rest =>
    have hnewline := h.newline
    rw [List.mem_cons, not_or] at hnewline
    exact ⟨(Position.line_past (Ne.symm hnewline.1)).trans h.line, hnewline.2⟩

end Cursor

/-- The token with the end of the line and more text behind it. Where the text ended, the line
ends. -/
def Scanned.followedBy (s : Scanned) (tail : List Char) : Scanned :=
  if s.token.lexeme = .endOfFile then
    ⟨⟨.endOfLine, s.token.position⟩, [], ⟨s.token.position.past '\n', tail⟩⟩
  else { s with after := s.after.followedBy tail }

namespace Cursor

variable {c : Cursor} {n : Nat} {tail : List Char}

/-- **The next token of a line does not depend on what follows the line.** -/
theorem next_followedBy (h : c.OnLine n) (tail : List Char) :
    (c.followedBy tail).next = c.next.followedBy tail := by
  have hskip := h.skipToToken
  simp only [next, skipToToken_followedBy]
  generalize c.skipToToken = d at hskip ⊢
  obtain ⟨p, rest⟩ := d
  cases rest with
  | nil => rfl
  | cons x rest =>
    have hnewline := hskip.newline
    rw [List.mem_cons, not_or] at hnewline
    simp only [followedBy, List.cons_append, Ne.symm hnewline.1, if_false]
    split
    · simp [stringBody_followedBy hnewline.2, Scanned.followedBy]
    · cases hmark : Punctuation.ofChar? x with
      | some mark => simp [Scanned.followedBy, pop, followedBy]
      | none =>
        -- A word ends at the line break, as it does at the end of the text.
        have hword := skipWhile_followedBy (q := isWordChar) (by decide) ⟨p, x :: rest⟩ tail
        have hend := classify_ne ((x :: rest).takeWhile isWordChar) (l := .endOfFile) rfl
        have htake := takeWhile_newline (q := isWordChar) (by decide) (x :: rest) tail
        simp only [followedBy, List.cons_append] at hword htake
        simp only [Scanned.followedBy, hend, if_false, hword, htake, followedBy]

/-- The next token of a line stands on the line, and so does the place behind it. The end of the
line is not met. -/
theorem OnLine.next (h : c.OnLine n) :
    c.next.token.position.line = n ∧ c.next.token.lexeme ≠ .endOfLine ∧ c.next.after.OnLine n := by
  have hskip := h.skipToToken
  simp only [Cursor.next]
  generalize c.skipToToken = d at hskip ⊢
  obtain ⟨p, rest⟩ := d
  cases rest with
  | nil => exact ⟨hskip.line, by simp, hskip⟩
  | cons x rest =>
    dsimp only
    split
    · rename_i hx
      exact absurd (hx ▸ List.mem_cons_self) hskip.newline
    · split
      · exact ⟨hskip.line, by simp, OnLine.stringBody hskip.pop⟩
      · split
        · exact ⟨hskip.line, by simp, hskip.pop⟩
        · exact ⟨hskip.line, classify_ne _ rfl, hskip.skipWhile _⟩

theorem OnLine.scan (h : c.OnLine n) : ∀ s ∈ c.scan, s.token.position.line = n := by
  induction hlength : c.rest.length using Nat.strongRecOn generalizing c with
  | _ length ih =>
    obtain ⟨hposition, -, hafter⟩ := h.next
    rw [scan_eq]
    split
    · simpa using hposition
    · rename_i hlexeme
      have hshort := length_next c.position c.rest hlexeme
      rw [List.forall_mem_cons]
      exact ⟨hposition, ih _ (hlength ▸ hshort) hafter rfl⟩

end Cursor

namespace Source

variable {c : Cursor} {n : Nat}

theorem isLineEnd_next (h : c.OnLine n) (hlexeme : c.next.token.lexeme ≠ .endOfFile) :
    c.next.token.lexeme.isLineEnd = false := by
  have hline := h.next.2.1
  revert hline hlexeme
  generalize c.next.token.lexeme = lexeme
  cases lexeme <;> simp [Lexeme.isLineEnd]

/-- A text without an end of a line is one line. -/
theorem splitLine_scan (h : c.OnLine n) : splitLine c.scan = (c.scan, []) := by
  induction hlength : c.rest.length using Nat.strongRecOn generalizing c with
  | _ length ih =>
    rw [Cursor.scan_eq]
    split
    · rename_i hlexeme
      simp [splitLine, hlexeme, Lexeme.isLineEnd]
    · rename_i hlexeme
      have hshort := Cursor.length_next c.position c.rest hlexeme
      have hrest := ih _ (hlength ▸ hshort) h.next.2.2 rfl
      simp [splitLine, isLineEnd_next h hlexeme, hrest]

/-- **Scanning a line does not look behind it**: its tokens are those that it has at the end of the
text, and scanning goes on with the next line. -/
theorem splitLine_scan_followedBy (h : c.OnLine n) (tail : List Char) :
    splitLine (c.followedBy tail).scan =
      (c.scan.map (·.followedBy tail), Cursor.scan ⟨⟨n + 1, 1⟩, tail⟩) := by
  induction hlength : c.rest.length using Nat.strongRecOn generalizing c with
  | _ length ih =>
    obtain ⟨hposition, -, hafter⟩ := h.next
    rw [Cursor.scan_eq, Cursor.scan_eq c, Cursor.next_followedBy h]
    -- Where the text ended, the line ends now; all tokens before are the same.
    by_cases hlexeme : c.next.token.lexeme = .endOfFile
    · simp [Scanned.followedBy, hlexeme, splitLine, Lexeme.isLineEnd, Position.past_newline,
        hposition]
    · have hshort := Cursor.length_next c.position c.rest hlexeme
      have hrest := ih _ (hlength ▸ hshort) hafter rfl
      simp [Scanned.followedBy, hlexeme, splitLine, isLineEnd_next h hlexeme, hrest]

/-! ## Lines of characters -/

/-- The lines of characters of a text, each with the end that it has. -/
def physicalLines : List Char → List (List Char)
  | [] => []
  | c :: cs =>
    if c = '\n' then [c] :: physicalLines cs
    else
      match physicalLines cs with
      | [] => [[c]]
      | line :: lines => (c :: line) :: lines

/-- The lines make up the text. -/
theorem flatten_physicalLines (text : List Char) : (physicalLines text).flatten = text := by
  induction text with
  | nil => rfl
  | cons c cs ih =>
    simp only [physicalLines]
    split
    · simp [ih]
    · split
      · rename_i hnone
        simp_all
      · rename_i line lines hlines
        simpa [hlines] using ih

theorem physicalLines_append {body : List Char} (h : '\n' ∉ body) (tail : List Char) :
    physicalLines (body ++ '\n' :: tail) = (body ++ ['\n']) :: physicalLines tail := by
  induction body with
  | nil => simp [physicalLines]
  | cons c body ih =>
    rw [List.mem_cons, not_or] at h
    simp [physicalLines, Ne.symm h.1, ih h.2]

theorem physicalLines_of_notMem {body : List Char} (h : '\n' ∉ body) (hbody : body ≠ []) :
    physicalLines body = [body] := by
  induction body with
  | nil => exact absurd rfl hbody
  | cons c body ih =>
    rw [List.mem_cons, not_or] at h
    cases body with
    | nil => simp [physicalLines, Ne.symm h.1]
    | cons d body =>
      rw [physicalLines, ih h.2 (List.cons_ne_nil _ _)]
      simp [Ne.symm h.1]

/-- The end of a line is the last character of a line, if it is there. -/
theorem exists_body {text line : List Char} (h : line ∈ physicalLines text) :
    ∃ body, '\n' ∉ body ∧ (line = body ∨ line = body ++ ['\n']) := by
  induction text generalizing line with
  | nil => cases h
  | cons c cs ih =>
    simp only [physicalLines] at h
    split at h
    · rename_i hc
      rcases List.mem_cons.mp h with rfl | h
      · exact ⟨[], List.not_mem_nil, .inr (by rw [hc, List.nil_append])⟩
      · exact ih h
    · rename_i hc
      split at h
      · obtain rfl := List.mem_singleton.mp h
        exact ⟨[c], by simpa using Ne.symm hc, .inl rfl⟩
      · rename_i first rest hlines
        rcases List.mem_cons.mp h with rfl | h
        · obtain ⟨body, hbody, hfirst⟩ := ih (hlines ▸ List.mem_cons_self)
          refine ⟨c :: body, by simp [hbody, Ne.symm hc], ?_⟩
          exact hfirst.imp (congrArg (c :: ·)) (congrArg (c :: ·))
        · exact ih (hlines ▸ List.mem_cons_of_mem _ h)

/-- The tokens of a line with a number, scanned alone. -/
def lineTokens (number : Nat) (line : List Char) : List Token :=
  (splitLine (Cursor.scan ⟨⟨number, 1⟩, line⟩)).1.map (·.token)

/-- Whether a line has a token before the end of the file. -/
def isReached (number : Nat) (line : List Char) : Bool :=
  (lineTokens number line).head?.any (·.lexeme != .endOfFile)

/-- The lines of characters before the end of the file, with their numbers. -/
def reachedFrom (first : Nat) (text : List Char) : List (List Char × Nat) :=
  ((physicalLines text).zipIdx first).takeWhile fun line => isReached line.2 line.1

/-- The lines of characters of a text before the end of the file. -/
def reachedLines (text : List Char) : List (List Char × Nat) :=
  reachedFrom 1 text

theorem lexeme_followedBy (s : Scanned) (tail : List Char) :
    (s.followedBy tail).token.lexeme ≠ .endOfFile := by
  simp only [Scanned.followedBy]
  split
  · simp
  · assumption

theorem token_followedBy (s : Scanned) (tail tail' : List Char) :
    (s.followedBy tail).token = (s.followedBy tail').token := by
  simp only [Scanned.followedBy]
  split
  · rfl
  · rfl

theorem tokens_splitLine {body : List Char} (h : '\n' ∉ body) (tail : List Char) :
    (splitLine (Cursor.scan ⟨⟨n, 1⟩, body ++ '\n' :: tail⟩)).1.map (·.token) =
      lineTokens n (body ++ ['\n']) := by
  have hbody : Cursor.OnLine n ⟨⟨n, 1⟩, body⟩ := ⟨rfl, h⟩
  have htokens (tail : List Char) := congrArg (·.1.map (·.token))
    (splitLine_scan_followedBy hbody tail)
  rw [lineTokens, show body ++ ['\n'] = body ++ '\n' :: [] from rfl]
  refine (htokens tail).trans (Eq.trans ?_ (htokens []).symm)
  simp only [List.map_map, Function.comp_def, token_followedBy _ tail []]

theorem position_followedBy (s : Scanned) (tail : List Char) :
    (s.followedBy tail).token.position = s.token.position := by
  simp only [Scanned.followedBy]
  split
  · rfl
  · rfl

/-- The tokens of a line stand on the line. -/
theorem line_lineTokens {text : List Char} {line : List Char} (h : line ∈ physicalLines text)
    (number : Nat) : ∀ token ∈ lineTokens number line, token.position.line = number := by
  obtain ⟨body, hbody, hline⟩ := exists_body h
  have honLine : Cursor.OnLine number ⟨⟨number, 1⟩, body⟩ := ⟨rfl, hbody⟩
  intro token htoken
  rw [lineTokens] at htoken
  rcases hline with rfl | rfl
  · rw [splitLine_scan honLine] at htoken
    obtain ⟨s, hs, rfl⟩ := List.mem_map.mp htoken
    exact honLine.scan s hs
  · have hsplit := splitLine_scan_followedBy honLine []
    rw [Cursor.followedBy] at hsplit
    rw [hsplit, List.map_map] at htoken
    obtain ⟨s, hs, rfl⟩ := List.mem_map.mp htoken
    rw [Function.comp_apply, position_followedBy]
    exact honLine.scan s hs

theorem isReached_append {body : List Char} (h : '\n' ∉ body) :
    isReached n (body ++ ['\n']) = true := by
  have hsplit := splitLine_scan_followedBy (c := ⟨⟨n, 1⟩, body⟩) ⟨rfl, h⟩ []
  obtain ⟨ss, hscan⟩ := Cursor.exists_scan ⟨⟨n, 1⟩, body⟩
  rw [Cursor.followedBy, hscan] at hsplit
  simp [isReached, lineTokens, hsplit, lexeme_followedBy]

theorem isReached_of_notMem {body : List Char} (h : '\n' ∉ body) :
    isReached n body = ((Cursor.next ⟨⟨n, 1⟩, body⟩).token.lexeme != .endOfFile) := by
  have hsplit := splitLine_scan (c := ⟨⟨n, 1⟩, body⟩) ⟨rfl, h⟩
  obtain ⟨ss, hscan⟩ := Cursor.exists_scan ⟨⟨n, 1⟩, body⟩
  rw [hscan] at hsplit
  simp [isReached, lineTokens, hscan, hsplit]

theorem reachedFrom_append {first : Nat} {body : List Char} (h : '\n' ∉ body) (tail : List Char) :
    reachedFrom first (body ++ '\n' :: tail) =
      (body ++ ['\n'], first) :: reachedFrom (first + 1) tail := by
  simp [reachedFrom, physicalLines_append h, List.zipIdx_cons, isReached_append h]

theorem reachedFrom_of_notMem {first : Nat} {body : List Char} (h : '\n' ∉ body) :
    reachedFrom first body =
      if (Cursor.next ⟨⟨first, 1⟩, body⟩).token.lexeme = .endOfFile then []
      else [(body, first)] := by
  cases body with
  | nil => rfl
  | cons c body =>
    rw [reachedFrom, physicalLines_of_notMem h (List.cons_ne_nil _ _)]
    simp [List.zipIdx_cons, List.takeWhile_cons, isReached_of_notMem h]

theorem tokens_linesFrom {first fuel : Nat} (known : Nat) {text : List Char}
    (hfuel : (Cursor.scan ⟨⟨first, 1⟩, text⟩).length ≤ fuel) :
    (linesFrom known fuel (Cursor.scan ⟨⟨first, 1⟩, text⟩)).map (·.tokens) =
      (reachedFrom first text).map fun line => lineTokens line.2 line.1 := by
  induction fuel generalizing known first text with
  | zero =>
    obtain ⟨ss, hscan⟩ := Cursor.exists_scan ⟨⟨first, 1⟩, text⟩
    simp [hscan] at hfuel
  | succ fuel ih =>
    obtain ⟨ss, hscan⟩ := Cursor.exists_scan ⟨⟨first, 1⟩, text⟩
    have hlength := length_splitLine (Cursor.next ⟨⟨first, 1⟩, text⟩) ss
    rw [hscan, List.length_cons, Nat.add_le_add_iff_right] at hfuel
    rw [hscan, linesFrom]
    rw [← hscan] at hlength ⊢
    -- A line that ends is followed by the lines of the rest; the last line is not.
    by_cases hnewline : '\n' ∈ text
    · obtain ⟨body, tail, rfl, hbody⟩ := List.eq_append_cons_of_mem hnewline
      have honLine : Cursor.OnLine first ⟨⟨first, 1⟩, body⟩ := ⟨rfl, hbody⟩
      have hrest := congrArg Prod.snd (splitLine_scan_followedBy honLine tail)
      have hlexeme :
          (Cursor.next ⟨⟨first, 1⟩, body ++ '\n' :: tail⟩).token.lexeme ≠ .endOfFile := by
        have hnext := Cursor.next_followedBy honLine tail
        exact hnext ▸ lexeme_followedBy _ tail
      simp only [Cursor.followedBy] at hrest
      rw [hrest] at hlength
      rw [if_neg hlexeme]
      dsimp only
      rw [hrest, List.map_cons, ih lookahead (Nat.le_trans hlength hfuel),
        reachedFrom_append hbody, List.map_cons, tokens_splitLine hbody]
    · have hsplit := splitLine_scan (c := ⟨⟨first, 1⟩, text⟩) ⟨rfl, hnewline⟩
      rw [reachedFrom_of_notMem hnewline]
      split
      · rfl
      · simp only [List.map_cons, List.map_nil, lineTokens, hsplit]
        cases fuel <;> rfl

/-- **The lines of tokens are those of the lines of characters**, each scanned alone. -/
theorem tokens_lines (text : List Char) :
    (lines text).map (·.tokens) =
      (reachedLines text).map fun line => lineTokens line.2 line.1 :=
  tokens_linesFrom 0 (Nat.le_refl _)

end Source
end Assembler6502
