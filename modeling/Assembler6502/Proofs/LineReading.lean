import Mathlib.Data.List.Forall2
import Assembler6502.Proofs.Parsing

/-!
# Reading by lines

What reading a text token by token comes to: the tokens of the text are cut into lines, and the
lines are read in order, each from its first token to its last, with the faults inside tokens
reported line by line.

## Main definitions

* `Parser.before`: the parser in front of a place, with the next two tokens in hand
* `Reading.readStatements`: reads the tokens of a line
* `Reading.readLines`: reads lines in order

## Main results

* `Parser.exists_skipLine`: where skipping a line leads, and which faults are met on the way
* `Reading.parseStep_before`: a round of the loop reads one line, and ends in front of the next
* `Reading.readText_eq`: a text is read as its lines
-/

namespace Assembler6502

open Source (splitLine faultsOf linesFrom lookahead)

namespace Parser

variable {c : Cursor} {faults : List (Position × LexError)} {ended : Bool}

/-! ## In front of a line -/

/-- The parser in front of a place, with the next two tokens in hand. -/
def before (c : Cursor) (faults : List (Position × LexError)) (ended : Bool) : Parser where
  current := c.next.token
  ahead := c.next.after.next.token
  cursor := c.next.after.next.after
  faults
  lineEnded := ended

theorem ofCursor_eq (c : Cursor) :
    ofCursor c = before c (c.next.errors ++ c.next.after.next.errors) false := rfl

theorem advance_before :
    (before c faults ended).advance =
      before c.next.after (faults ++ c.next.after.next.after.next.errors) ended := rfl

/-- The line in front of which the parser is. -/
theorem line_before (c : Cursor) (faults : List (Position × LexError)) (ended : Bool) :
    (before c faults ended).Line ((splitLine c.scan).1.map (·.token)) := by
  induction hlength : c.rest.length using Nat.strongRecOn generalizing c faults with
  | _ length ih =>
    obtain ⟨ss, hss⟩ := c.exists_scan
    by_cases hend : c.next.token.lexeme.isLineEnd = true
    · rw [hss, splitLine, if_pos hend]
      exact .last hend
    · have hfile : c.next.token.lexeme ≠ .endOfFile := by
        intro heof
        rw [heof] at hend
        exact hend rfl
      rw [Cursor.scan_eq, if_neg hfile, splitLine, if_neg hend]
      have hshort := Cursor.length_next c.position c.rest hfile
      exact .cons (Bool.eq_false_iff.mpr hend) (ih _ (hlength ▸ hshort) _ _ rfl)

/-- The second token of a text tells its faults behind the first, if it is there. -/
theorem faultsOf_drop_one (c : Cursor) {n : Nat} (hn : 2 ≤ n) :
    faultsOf ((c.scan.take n).drop 1) =
      c.next.after.next.errors ++ faultsOf ((c.scan.take n).drop 2) := by
  obtain ⟨n, rfl⟩ : ∃ k, n = k + 2 := ⟨n - 2, by omega⟩
  rw [Cursor.scan_eq]
  split
  · rename_i hend
    have hnone := Cursor.errors_of_endOfFile c.next.after.position c.next.after.rest
      (Cursor.next_of_endOfFile hend)
    simpa [faultsOf] using hnone.symm
  · obtain ⟨ss, hss⟩ := c.next.after.exists_scan
    simp [hss, faultsOf]

/-- **Where skipping a line leads**: in front of the next line, or to the end of the text if there
is none. On the way, the faults of the tokens up to the second of the next line are met, but for the
two tokens in hand. -/
theorem exists_skipLine (c : Cursor) :
    ∃ d : Cursor,
      (∀ faults ended, (before c faults ended).skipLine =
        before d (faults ++ faultsOf ((c.scan.take ((splitLine c.scan).1.length + 2)).drop 2))
          ended) ∧
      ((splitLine c.scan).2 = [] ∧ d.next.token.lexeme = .endOfFile ∨
        (splitLine c.scan).2 = d.scan) := by
  induction hlength : c.rest.length using Nat.strongRecOn generalizing c with
  | _ length ih =>
    obtain ⟨ss, hss⟩ := c.exists_scan
    by_cases hfile : c.next.token.lexeme = .endOfFile
    · refine ⟨c, fun faults ended => ?_, .inl ⟨?_, hfile⟩⟩
      · rw [skipLine_of_endOfFile hfile, Cursor.scan_eq, if_pos hfile]
        simp [splitLine, hfile, Lexeme.isLineEnd, faultsOf]
      · simp [Cursor.scan_eq, hfile, splitLine, Lexeme.isLineEnd]
    · have hscan : c.scan = c.next :: c.next.after.scan := by rw [Cursor.scan_eq, if_neg hfile]
      -- Taking a token brings one more into the hand, which may have faults.
      have hstep (n : Nat) (hn : 2 ≤ n) : faultsOf ((c.scan.take (n + 1)).drop 2) =
          c.next.after.next.after.next.errors ++ faultsOf ((c.next.after.scan.take n).drop 2) := by
        rw [hscan]
        exact faultsOf_drop_one c.next.after hn
      by_cases hline : c.next.token.lexeme = .endOfLine
      · refine ⟨c.next.after, fun faults ended => ?_, .inr ?_⟩
        · have hlength : (splitLine c.scan).1.length = 1 := by
            rw [hscan, splitLine, if_pos (by rw [hline]; rfl), List.length_singleton]
          rw [skipLine_of_endOfLine hline, advance_before, hlength, hstep 2 (Nat.le_refl 2)]
          simp [faultsOf]
        · rw [hscan, splitLine, if_pos (by rw [hline]; rfl)]
      · have hend : c.next.token.lexeme.isLineEnd = false := by
          cases hl : c.next.token.lexeme <;> simp_all [Lexeme.isLineEnd]
        obtain ⟨d, hskip, hrest⟩ :=
          ih _ (hlength ▸ Cursor.length_next c.position c.rest hfile) _ rfl
        have hsplit : splitLine c.scan =
            (c.next :: (splitLine c.next.after.scan).1, (splitLine c.next.after.scan).2) := by
          rw [hscan, splitLine, if_neg (by simp [hend])]
        refine ⟨d, fun faults ended => ?_, by rwa [hsplit]⟩
        have honward : (before c faults ended).Onward (before c faults ended).advance :=
          .step hend (.refl _)
        have hlength :
            (splitLine c.scan).1.length = (splitLine c.next.after.scan).1.length + 1 := by
          rw [hsplit, List.length_cons]
        rw [honward.skipLine_eq (line_before _ _ _), advance_before, hskip, hlength,
          Nat.add_right_comm, hstep _ (Nat.le_add_left 2 _), List.append_assoc]

end Parser

namespace Reading

/-! ## Lines of tokens -/

/-- The place of a line is that of its first token. -/
def lineLocation (file : String) (tokens : List Token) : Location :=
  locate file ((tokens.head?.map (·.position)).getD .start)

/-- Reads a line: its labels, then its phrase. The nodes of a faulty line are dropped, but their
numbers are used up. -/
def readStatements (fs : FileSystem) (load : Loader) (file directory : String) (r : Reading)
    (tokens : List Token) : Reading × List Node :=
  let location := lineLocation file tokens
  let (labels, count, rest) := Source.takeLabels r.anonymousLabels tokens
  let (r, labels) := { r with anonymousLabels := count }.make location (labels.map .mark)
  let outcome := do
    let phrase ← Source.readPhrase ⟨r.cpu, r.charmap, count⟩ rest
    r.perform fs load directory location phrase
  match outcome with
  | .ok (r, nodes) => (r, labels ++ nodes)
  | .error e => (r.error location e, [])

/-- Reads lines in order. -/
def readLines (fs : FileSystem) (load : Loader) (file directory : String) :
    Reading → List Source.Line → Reading × List Node
  | r, [] => (r, [])
  | r, line :: lines =>
    let (r, nodes) := r.readStatements fs load file directory line.tokens
    let r := r.reportFaults file line.faults
    let (r, rest) := readLines fs load file directory r lines
    (r, nodes ++ rest)

/-- What the labels of a line make. -/
def readLabels (file : String) (r : Reading) (tokens : List Token) : Reading × List Node :=
  let (labels, count, _) := Source.takeLabels r.anonymousLabels tokens
  { r with anonymousLabels := count }.make (lineLocation file tokens)
    (labels.map .mark)

/-- What the phrase of a line does, behind the labels of the line. -/
def lineOutcome (fs : FileSystem) (load : Loader) (file directory : String) (r : Reading)
    (tokens : List Token) : Except ParseError (Reading × List Node) :=
  let labelled := (r.readLabels file tokens).1
  let (_, count, rest) := Source.takeLabels r.anonymousLabels tokens
  Source.readPhrase ⟨labelled.cpu, labelled.charmap, count⟩ rest >>=
    labelled.perform fs load directory (lineLocation file tokens)

variable {fs : FileSystem} {load : Loader} {file directory : String} {r : Reading} {p : Parser}
  {ts : List Token}

theorem readStatements_eq_match (file directory : String) (r : Reading) (tokens : List Token) :
    r.readStatements fs load file directory tokens =
      match r.lineOutcome fs load file directory tokens with
      | .ok (r', nodes) => (r', (r.readLabels file tokens).2 ++ nodes)
      | .error e =>
        ((r.readLabels file tokens).1.error (lineLocation file tokens) e, []) :=
  rfl

/-! ## Token by token -/

/-- **A line is taken as its tokens are read.** Unless that fails, its end has been taken; and where
it fails, its end has been taken or the parser is still on the line. -/
theorem parseLine_eq (fs : FileSystem) (load : Loader) (file directory : String) (r : Reading)
    (h : p.Line ts) :
    ∃ q, r.parseLine fs load directory (lineLocation file ts) p =
        (match r.lineOutcome fs load file directory ts with
          | .ok (r', nodes) => (r', .ok ((r.readLabels file ts).2 ++ nodes), q)
          | .error e => ((r.readLabels file ts).1, .error e, q)) ∧
      (q = { p.skipLine with lineEnded := true } ∨
        p.Onward q ∧ ∃ e, r.lineOutcome fs load file directory ts = .error e) := by
  obtain ⟨q, hlabels, hq⟩ := Parser.takeLabels_eq (n := p.room) r.anonymousLabels h.length_le
    ⟨.refl p, h, Nat.le_refl _⟩
  have hmake : { r with anonymousLabels := (Source.takeLabels r.anonymousLabels ts).2.1 }.make
      (lineLocation file ts) ((Source.takeLabels r.anonymousLabels ts).1.map .mark) =
      r.readLabels file ts := rfl
  simp only [parseLine, hlabels, lineOutcome, hmake]
  generalize r.readLabels file ts = labelled
  -- Behind the labels the phrase is taken from the tokens that are left.
  have hphrase := Parser.closes_phrase
    ⟨labelled.1.cpu, labelled.1.charmap, (Source.takeLabels r.anonymousLabels ts).2.1⟩ hq
  generalize Parse.phrase _ _ = taken at hphrase ⊢
  generalize Source.readPhrase _ _ = read at hphrase ⊢
  cases hphrase with
  | error h => exact ⟨_, rfl, .inr ⟨h, _, rfl⟩⟩
  | @ok phrase q read h =>
    obtain ⟨rfl, rfl⟩ := h
    refine ⟨_, ?_, .inl rfl⟩
    dsimp only [bind, Except.bind]
    cases labelled.1.perform fs load directory (lineLocation file ts) read with
    | error e => rfl
    | ok x => rfl

/-- What becomes of a line, by what taking it came to. -/
theorem readStatements_eq_parseLine (fs : FileSystem) (load : Loader) (file directory : String)
    (r : Reading) (h : p.Line ts) :
    r.readStatements fs load file directory ts =
      match r.parseLine fs load directory (lineLocation file ts) p with
      | (r', .ok nodes, _) => (r', nodes)
      | (r', .error e, _) => (r'.error (lineLocation file ts) e, []) := by
  obtain ⟨q, hparse, -⟩ := parseLine_eq fs load file directory r h
  rw [readStatements_eq_match, hparse]
  cases r.lineOutcome fs load file directory ts with
  | ok x => rfl
  | error e => rfl

/-- **A round of the loop reads one line**, and whatever becomes of the line, the parser is in front
of the next one then. -/
theorem parseStep_before (fs : FileSystem) (load : Loader) (file directory : String) (r : Reading)
    {c d : Cursor} {faults more : List (Position × LexError)} (ended : Bool)
    (hskip : ∀ ended, (Parser.before c faults ended).skipLine = .before d more ended) :
    let read := r.readStatements fs load file directory ((splitLine c.scan).1.map (·.token))
    ∃ ended', r.parseStep fs load file directory (.before c faults ended) =
      ((read.1.reportFaults file more, read.2), .before d [] ended') := by
  have hline := Parser.line_before c faults false
  have hlocation : lineLocation file ((splitLine c.scan).1.map (·.token)) =
      locate file c.next.token.position := by
    obtain ⟨rest, hts⟩ := hline.exists_cons
    rw [hts]
    rfl
  obtain ⟨q, hparse, hq⟩ := parseLine_eq fs load file directory r hline
  -- Wherever the line was left, what is left of it is skipped.
  have hbehind : (if q.lineEnded then q else q.skipLine) = .before d more q.lineEnded := by
    rcases hq with rfl | ⟨honward, -⟩
    · rw [hskip]
      rfl
    · obtain ⟨rest, hrest⟩ := honward.exists_rest hline
      rw [honward.lineEnded, if_neg (by simp [Parser.before]), ← honward.skipLine_eq hrest, hskip]
      rfl
  rw [hlocation] at hparse
  refine ⟨q.lineEnded, ?_⟩
  rw [readStatements_eq_match, hlocation]
  simp only [parseStep]
  have hparse' : r.parseLine fs load directory
      (locate file (Parser.before c faults ended).current.position)
      { Parser.before c faults ended with lineEnded := false } = _ := hparse
  rw [hparse']
  cases houtcome : r.lineOutcome fs load file directory ((splitLine c.scan).1.map (·.token)) with
  | ok x =>
    obtain rfl : q = _ := hq.resolve_right (by simp [houtcome])
    rw [hskip]
    rfl
  | error e =>
    dsimp only
    rw [hbehind]
    rfl

/-! ## The loop -/

/-- A run of the loop over a text, with the reading and the parser at each call that reads a line.
It ends with the end of the text. -/
inductive Parses (fs : FileSystem) (load : Loader) (file directory : String) :
    Reading → Parser → List (Reading × Parser) → Reading × List Node → Prop
  | finish {r : Reading} {p : Parser} (h : p.current.lexeme = .endOfFile) :
      Parses fs load file directory r p [] (r.reportFaults file p.faults, [])
  | line {r r' : Reading} {p p' : Parser} {nodes : List Node} {calls : List (Reading × Parser)}
      {read : Reading × List Node} (h : p.current.lexeme ≠ .endOfFile)
      (hstep : r.parseStep fs load file directory p = ((r', nodes), p'))
      (hrest : Parses fs load file directory r' p' calls read) :
      Parses fs load file directory r p ((r, p) :: calls) (read.1, nodes ++ read.2)

/-- There is only one run. -/
theorem Parses.unique {calls calls' : List (Reading × Parser)} {read read' : Reading × List Node}
    (h : Parses fs load file directory r p calls read)
    (h' : Parses fs load file directory r p calls' read') : calls = calls' ∧ read = read' := by
  induction h generalizing calls' read' with
  | finish h =>
    cases h' with
    | finish => exact ⟨rfl, rfl⟩
    | line h' => exact absurd h h'
  | line h hstep _ ih =>
    cases h' with
    | finish h' => exact absurd h' h
    | line _ hstep' hrest' =>
      obtain ⟨⟨rfl, rfl⟩, rfl⟩ : (_ ∧ _) ∧ _ := by simpa using hstep.symm.trans hstep'
      obtain ⟨rfl, rfl⟩ := ih hrest'
      exact ⟨rfl, rfl⟩

/-- With fuel for all calls, the loop makes the run. -/
theorem Parses.parseLines_eq {calls : List (Reading × Parser)} {read : Reading × List Node}
    {fuel : Nat} (h : Parses fs load file directory r p calls read) (hfuel : calls.length < fuel) :
    parseLines fs load file directory fuel r p = read := by
  induction h generalizing fuel with
  | finish h =>
    obtain ⟨fuel, rfl⟩ : ∃ n, fuel = n + 1 := ⟨fuel - 1, by omega⟩
    rw [parseLines, if_pos h]
  | line h hstep _ ih =>
    simp only [List.length_cons] at hfuel
    obtain ⟨fuel, rfl⟩ : ∃ n, fuel = n + 1 := ⟨fuel - 1, by omega⟩
    rw [parseLines, if_neg h, hstep]
    dsimp only
    rw [ih (by omega)]

/-- A call reads a line: it is in front of the tokens of the line, and makes and tells what the line
makes and tells. -/
structure Reads (fs : FileSystem) (load : Loader) (file directory : String)
    (call : Reading × Parser) (line : Source.Line) : Prop where
  before : call.2.Line line.tokens
  step : (call.1.parseStep fs load file directory call.2).1 =
    let read := call.1.readStatements fs load file directory line.tokens
    (read.1.reportFaults file line.faults, read.2)

/-- The faults in hand and those that are met on the way to the next line are those of the line. -/
theorem faultsOf_line {known : Nat} (hknown : known ≤ lookahead) (ss : List Scanned) :
    faultsOf ((ss.take lookahead).drop known) ++
        faultsOf ((ss.take ((splitLine ss).1.length + 2)).drop 2) =
      faultsOf (((splitLine ss).1 ++ (splitLine ss).2.take lookahead).drop known) := by
  have htake : ss.take ((splitLine ss).1.length + 2) =
      (splitLine ss).1 ++ (splitLine ss).2.take lookahead := by
    have happend := Source.splitLine_append ss
    generalize splitLine ss = split at happend ⊢
    rw [← happend]
    exact List.take_length_add_append 2
  have hfirst : ss.take lookahead = (ss.take ((splitLine ss).1.length + 2)).take lookahead := by
    have hmin : min lookahead ((splitLine ss).1.length + 2) = lookahead :=
      Nat.min_eq_left (Nat.le_add_left 2 _)
    rw [List.take_take, hmin]
  -- The tokens in hand are the first two of those whose faults are told by the end of the line.
  rw [← htake, hfirst]
  generalize ss.take ((splitLine ss).1.length + 2) = told
  rw [faultsOf, faultsOf, faultsOf, ← List.flatMap_append]
  congr 1
  conv_rhs => rw [← List.take_append_drop lookahead told]
  rw [List.drop_append]
  congr 1
  rcases Nat.lt_or_ge told.length lookahead with hshort | hlong
  · have hnone : told.drop 2 = [] := List.drop_eq_nil_of_le (Nat.le_of_lt hshort)
    rw [List.drop_eq_nil_of_le (Nat.le_of_lt hshort), List.drop_nil, hnone]
  · rw [List.length_take, Nat.min_eq_left hlong, Nat.sub_eq_zero_of_le hknown]
    rfl

/-- The lines behind a line are those of the place where skipping it leads. -/
theorem linesFrom_skip {c d : Cursor} {fuel : Nat} (hfile : c.next.token.lexeme ≠ .endOfFile)
    (hfuel : c.scan.length ≤ fuel + 1)
    (hrest : (splitLine c.scan).2 = [] ∧ d.next.token.lexeme = .endOfFile ∨
      (splitLine c.scan).2 = d.scan) :
    linesFrom lookahead fuel (splitLine c.scan).2 = linesFrom lookahead fuel d.scan ∧
      d.scan.length ≤ fuel := by
  have hscan : c.scan = c.next :: c.next.after.scan := by rw [Cursor.scan_eq, if_neg hfile]
  rcases hrest with ⟨hnil, heof⟩ | hrest
  · obtain ⟨ss, hss⟩ := c.next.after.exists_scan
    have hd : d.scan = [d.next] := by rw [Cursor.scan_eq, if_pos heof]
    rw [hscan, hss] at hfuel
    simp only [List.length_cons] at hfuel
    obtain ⟨fuel, rfl⟩ : ∃ n, fuel = n + 1 := ⟨fuel - 1, by omega⟩
    rw [hnil, hd]
    simp [linesFrom, heof]
  · rw [hrest]
    have hlength := Source.length_splitLine c.next c.next.after.scan
    rw [← hscan, hrest] at hlength
    rw [hscan] at hfuel
    simp only [List.length_cons] at hfuel
    exact ⟨rfl, by omega⟩

/-- **The run over a text**: the calls are one for each line of tokens, in order, each in front of
the tokens of its line, and what they come to is what reading the lines comes to. -/
theorem exists_parses (fs : FileSystem) (load : Loader) (file directory : String) {known : Nat}
    (hknown : known ≤ lookahead) (r : Reading) (c : Cursor) (ended : Bool) {fuel : Nat}
    (hfuel : c.scan.length ≤ fuel) :
    ∃ calls,
      Parses fs load file directory r
        (.before c (faultsOf ((c.scan.take lookahead).drop known)) ended) calls
        (readLines fs load file directory r (linesFrom known fuel c.scan)) ∧
      List.Forall₂ (Reads fs load file directory) calls (linesFrom known fuel c.scan) := by
  obtain ⟨ss, hss⟩ := c.exists_scan
  induction fuel generalizing known r c ended ss with
  | zero => simp [hss] at hfuel
  | succ fuel ih =>
    by_cases hfile : c.next.token.lexeme = .endOfFile
    · -- No line is left, and the end of the text has no faults.
      have hscan : c.scan = [c.next] := by rw [Cursor.scan_eq, if_pos hfile]
      have hnone := Cursor.errors_of_endOfFile c.position c.rest hfile
      have hfaults : faultsOf ((c.scan.take lookahead).drop known) = [] := by
        rw [hscan]
        cases known with
        | zero => simpa [faultsOf, lookahead] using hnone
        | succ known => simp [faultsOf, lookahead]
      have hlines : linesFrom known (fuel + 1) c.scan = [] := by simp [hscan, linesFrom, hfile]
      rw [hfaults, hlines]
      exact ⟨[], .finish hfile, .nil⟩
    · -- A round reads one line and leaves the parser in front of the next one.
      obtain ⟨d, hskip, hrest⟩ := Parser.exists_skipLine c
      obtain ⟨hlines, hlength⟩ := linesFrom_skip hfile hfuel hrest
      obtain ⟨ended', hstep⟩ := parseStep_before fs load file directory r ended fun ended =>
        hskip (faultsOf ((c.scan.take lookahead).drop known)) ended
      rw [faultsOf_line hknown] at hstep
      have hnext : linesFrom known (fuel + 1) c.scan =
          ⟨(splitLine c.scan).1.map (·.token),
            faultsOf (((splitLine c.scan).1 ++ (splitLine c.scan).2.take lookahead).drop known)⟩ ::
            linesFrom lookahead fuel d.scan := by
        rw [← hlines, hss]
        simp [linesFrom, hfile]
      obtain ⟨ss', hss'⟩ := d.exists_scan
      obtain ⟨calls, hparses, hcalls⟩ := ih (Nat.le_refl lookahead) _ d ended' hlength ss' hss'
      rw [List.drop_eq_nil_of_le (List.length_take_le _ _)] at hparses
      rw [hnext]
      refine ⟨_, .line hfile hstep hparses, .cons ⟨Parser.line_before c _ ended, ?_⟩ hcalls⟩
      rw [hstep]

theorem length_linesFrom (known fuel : Nat) (ss : List Scanned) :
    (linesFrom known fuel ss).length ≤ fuel := by
  induction fuel generalizing known ss with
  | zero => exact Nat.le_refl 0
  | succ fuel ih =>
    simp only [linesFrom]
    split
    · exact Nat.zero_le _
    · split
      · exact Nat.zero_le _
      · exact Nat.succ_le_succ (ih _ _)

/-- There is room for the tokens of a text. -/
theorem length_scan_le (c : Cursor) (faults : List (Position × LexError)) (ended : Bool) :
    c.scan.length ≤ (Parser.before c faults ended).room := by
  have hnext (d : Cursor) : d.scan.length ≤ d.next.after.scan.length + 1 := by
    rw [Cursor.scan_eq]
    split
    · simp
    · simp
  have hfirst := hnext c
  have hsecond := hnext c.next.after
  have hlast := Cursor.length_scan c.next.after.next.after
  simp only [Parser.room, Parser.before]
  omega

theorem ofCursor_eq_before (c : Cursor) :
    Parser.ofCursor c = .before c (faultsOf ((c.scan.take lookahead).drop 0)) false := by
  have hsecond := Parser.faultsOf_drop_one c (Nat.le_refl 2)
  obtain ⟨ss, hss⟩ := c.exists_scan
  rw [hss] at hsecond ⊢
  have hfaults : faultsOf (((c.next :: ss).take lookahead).drop 0) =
      c.next.errors ++ c.next.after.next.errors := by
    simpa [faultsOf, lookahead] using hsecond
  rw [Parser.ofCursor_eq, hfaults]

/-- **The run over a text.** -/
theorem exists_parses_ofText (fs : FileSystem) (load : Loader) (file directory : String)
    (r : Reading) (text : List Char) :
    ∃ calls,
      Parses fs load file directory r (Parser.ofText text) calls
        (readLines fs load file directory r (Source.lines text)) ∧
      List.Forall₂ (Reads fs load file directory) calls (Source.lines text) := by
  have hparses := exists_parses fs load file directory (Nat.zero_le lookahead) r
    (Cursor.ofText text) false (Nat.le_refl _)
  rwa [← ofCursor_eq_before] at hparses

/-- **A text is read as its lines.** -/
theorem readText_eq (fs : FileSystem) (load : Loader) (file directory : String)
    (location : Location) (text : List Char) (r : Reading) :
    r.readText fs load file directory location text =
      let read := readLines fs load file directory r (Source.lines text)
      read.1.gather location read.2 := by
  obtain ⟨calls, hparses, hcalls⟩ := exists_parses_ofText fs load file directory r text
  have hlength : calls.length < (Parser.ofText text).room + 1 := by
    rw [hcalls.length_eq]
    have hroom := length_scan_le (Cursor.ofText text)
      (faultsOf (((Cursor.ofText text).scan.take lookahead).drop 0)) false
    rw [← ofCursor_eq_before] at hroom
    exact Nat.lt_succ_of_le (Nat.le_trans (length_linesFrom _ _ _) hroom)
  rw [readText, hparses.parseLines_eq hlength]

end Reading

end Assembler6502
