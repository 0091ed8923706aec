import Assembler6502.Proofs.Indifference
import Assembler6502.Proofs.Listing
import Assembler6502.Proofs.Rereading
import Assembler6502.Proofs.Tours

/-!
# Compiling at an address

A text can be given an address in two ways: it is compiled at the address, or a line that sets the
address is put in front of it. The line is read as the statement that compiling puts in front, and
the text behind it is read as it is read alone, at other positions. So the two programs have the
same items in the same order, and assembling looks at nothing else.

## Main definitions

* `Source.originLine`: the line that sets an address

## Main results

* `Source.lines_origin`: the lines of a text behind the line that sets an address
* `Source.read_origin`: what is read from them
* `Assembly.compile_eq_ok_iff`: compiling at an address is assembling behind that line
-/

namespace Assembler6502

/-! ## The numeral -/

namespace Text

theorem classify_of_digit {x : Char} {rest : List Char} (hx : x.isDigit = true) (hzero : x ≠ '0') :
    Cursor.classify (x :: rest) = .decimal (x :: rest) := by
  unfold Cursor.classify
  split <;> simp_all

theorem isWord_decimal (n : Nat) : Cursor.IsWord (decimal n).toList = true := by
  have hdigits : ∀ c ∈ Nat.toDigits 10 n, Cursor.isWordChar c = true ∧ c ≠ '.' :=
    forall_mem_toDigits (by decide) (by decide) n
  rw [toList_decimal]
  cases hlist : Nat.toDigits 10 n with
  | nil => exact absurd hlist Nat.toDigits_ne_nil
  | cons x rest =>
    rw [hlist] at hdigits
    have hx := hdigits x List.mem_cons_self
    refine Cursor.isWord_cons.mpr ⟨hx.1, hx.2, List.all_eq_true.mpr fun c hc => ?_⟩
    exact (hdigits c (List.mem_cons_of_mem _ hc)).1

theorem classify_decimal (n : Nat) :
    Cursor.classify (decimal n).toList = .decimal (decimal n).toList := by
  rw [toList_decimal]
  by_cases hn : n = 0
  · subst hn
    rfl
  · obtain ⟨d, rest, hpos, hd, hdigits⟩ :=
      exists_toDigits_cons (by decide : 1 < 10) (Nat.pos_of_ne_zero hn)
    have hdigit : ∀ d < 10, 0 < d → (Nat.digitChar d).isDigit = true ∧ Nat.digitChar d ≠ '0' := by
      decide
    rw [hdigits]
    exact classify_of_digit (hdigit d hd hpos).1 (hdigit d hd hpos).2

/-- **The decimal numeral of a number that fits into a word denotes it.** -/
theorem value_decimal {n : Nat} (hn : n ≤ Int64.maxValue.toInt.toNat) :
    (Cursor.classify (decimal n).toList).value = .ok (Int64.ofNat n) := by
  have hall : (decimal n).toList.all Char.isDigit = true := by
    rw [toList_decimal, List.all_eq_true]
    exact fun c hc => Nat.isDigit_of_mem_toDigits (by decide) (by decide) hc
  rw [classify_decimal, Lexeme.value, if_pos hall, Lexeme.numeralValue, readNumeral?_decimal,
    Option.bind_some, Value.ofNat?, if_pos hn]

end Text

/-! ## The lines -/

namespace Source

/-- The line that sets an address. -/
def originLine (start : Nat) : List Char :=
  (".org " ++ Text.decimal start ++ "\n").toList

theorem originLine_append (start : Nat) (text : List Char) :
    originLine start ++ text = '.' :: (['o', 'r', 'g'] ++
      ' ' :: ((Text.decimal start).toList ++ '\n' :: text)) := by
  simp [originLine, String.toList_append]

/-- The tokens of the line that sets an address stand before those of the text. -/
theorem scan_origin (start : Nat) (text : List Char) :
    ∃ s₁ s₂ s₃ s₄ p fuel, text.length < fuel ∧
      Token.scan (originLine start ++ text) =
        s₁ :: s₂ :: s₃ :: s₄ :: Token.scanFrom fuel ⟨p, text⟩ ∧
      [s₁, s₂, s₃, s₄].map (·.token.lexeme) =
        originLexemes (Text.decimal start).toList ++ [.endOfLine] ∧
      ∀ s ∈ [s₁, s₂, s₃, s₄], s.errors = [] := by
  have horg : Cursor.classify ['o', 'r', 'g'] = .identifier "org" := by decide
  have hword := Text.isWord_decimal start
  have hnumeral : Cursor.classify (Text.decimal start).toList ≠ .endOfFile := by
    rw [Text.classify_decimal]
    simp
  obtain ⟨fuel, hfuel, hlength⟩ : ∃ fuel, text.length < fuel ∧
      (originLine start ++ text).length + 1 = fuel + 4 := by
    refine ⟨(originLine start ++ text).length - 3, ?_, ?_⟩ <;>
      simp only [originLine_append, List.length_cons, List.length_append] <;> omega
  rw [Token.scan, hlength, Cursor.ofText, originLine_append]
  have hdot (p : Position) (rest : List Char) : Cursor.next ⟨p, '.' :: rest⟩ =
      ⟨⟨.mark .dot, p⟩, [], ⟨p.past '.', rest⟩⟩ := Cursor.next_mark .dot
  -- The dot, the name, the numeral behind a blank and the line break take a unit of fuel each.
  rw [Token.scanFrom_of_next (hdot _ _) (by simp),
    Token.scanFrom_of_next (Cursor.next_word (by decide) rfl) (by simp [horg]),
    Token.scanFrom_blank, Token.scanFrom_of_next (Cursor.next_word hword rfl) hnumeral,
    Token.scanFrom_of_next Cursor.next_newline (by simp)]
  exact ⟨_, _, _, _, _, fuel, hfuel, rfl, by simp [originLexemes, horg], by simp⟩

/-- **The lines of a text behind the line that sets an address** are the lines that the text has
alone. The line before tells the faults of the first tokens of the text. -/
theorem lines_origin (start : Nat) (text : List Char) :
    ∃ line lines, Source.lines (originLine start ++ text) = line :: lines ∧
      line.tokens.map (·.lexeme) = originLexemes (Text.decimal start).toList ++ [.endOfLine] ∧
      List.Forall₂ Line.Same (Source.lines text) lines ∧
      faulty (Source.lines text) = faulty (line :: lines) := by
  obtain ⟨s₁, s₂, s₃, s₄, p, fuel, hfuel, hscan, hlexemes, herrors⟩ := scan_origin start text
  have hsame := Token.scanFrom_same .start p (Nat.lt_add_one text.length) hfuel
  have hlength := hsame.length_eq
  generalize hrest : Token.scanFrom fuel ⟨p, text⟩ = rest at hscan hsame hlength
  -- The same characters are scanned from two positions, and both scans have fuel to spare.
  have hfuel' : (Token.scanFrom (text.length + 1) ⟨.start, text⟩).length ≤ rest.length + 3 := by
    omega
  obtain ⟨hlines, hfaulty⟩ := linesFrom_behind hsame (Nat.le_refl _) hfuel'
    fun s others h hs => by
      subst hrest
      exact faultsOf_scanFrom h hs
  simp only [originLexemes, List.map_cons, List.map_nil, List.cons_append, List.nil_append,
    List.cons.injEq, and_true] at hlexemes
  obtain ⟨h₁, h₂, h₃, h₄⟩ := hlexemes
  have hsplit : splitLine (s₁ :: s₂ :: s₃ :: s₄ :: rest) = ([s₁, s₂, s₃, s₄], rest) := by
    have hend : Lexeme.endOfLine.isLineEnd = true := rfl
    simp [splitLine, h₁, h₂, h₃, h₄, hend]
  -- The first line has no faults of its own, and tells those of the tokens behind it.
  have htold : faultsOf ([s₁, s₂, s₃, s₄] ++ rest.take lookahead) =
      faultsOf (rest.take lookahead) := by
    rw [faultsOf, List.flatMap_append, List.flatMap_eq_nil_iff.mpr herrors, List.nil_append]
    rfl
  have hfirst : Source.lines (originLine start ++ text) =
      ⟨[s₁, s₂, s₃, s₄].map (·.token), faultsOf (rest.take lookahead)⟩ ::
        linesFrom lookahead (rest.length + 3) rest := by
    simp only [Source.lines, hscan, List.length_cons, linesFrom, h₁, hsplit, List.drop_zero, htold]
    rfl
  refine ⟨_, _, hfirst, ?_, hlines, hfaulty⟩
  simp [originLexemes, h₁, h₂, h₃, h₄]

/-! ## What is read -/

/-- **What is read behind the line that sets an address** is what is read without it, behind the
statement that sets the address; and a fault is found with the line or without it, or neither. -/
theorem read_origin (cpu : Cpu) (fs : FileSystem) (stdin : Except FileError (List UInt8))
    (name name' : String) {start : Nat} (hstart : start ≤ Int64.maxValue.toInt.toNat)
    (text : List Char) :
    (read cpu fs stdin [.text name text ""]).diagnostics.hasErrors =
        (read cpu fs stdin [.text name' (originLine start ++ text) ""]).diagnostics.hasErrors ∧
      (Assembly.placeAt start (read cpu fs stdin [.text name text ""]).program).leaves.map
          (·.2.item) =
        (read cpu fs stdin [.text name' (originLine start ++ text) ""]).program.leaves.map
          (·.2.item) := by
  obtain ⟨line, lines, hlines, hlexemes, hsame, hfaulty⟩ := lines_origin start text
  have hload : Reading.Loader.Placeless (Reading.load fs) := Reading.placeless_loadWithin fs _
  have hvalue := Text.value_decimal hstart
  -- The first line becomes the statement, and its faults are told.
  obtain ⟨location, hstatements⟩ := Reading.readStatements_item fs (Reading.load fs) name' ""
    (r := { cpu, input := stdin }) (takeLabels_of_lexemes hlexemes (by simp) (by simp))
    (readPhrase_org hvalue hlexemes)
  have htold : Reading.Alike (faulty (Source.lines text) || false) (faulty lines || false)
      (Reading.reportFaults name { cpu, input := stdin } [])
      (Reading.reportFaults name' (({ cpu, input := stdin } : Reading).make location
        [.setPc (.constant (Int64.ofNat start))]).1 line.faults) :=
    .reportFaults
      (.intro rfl (by simpa [faulty, Diagnostics.hasErrors, Reading.make] using hfaulty))
  obtain ⟨hread, hitems⟩ := Reading.alike_readLines fs hload name name' "" hsame htold
  simp only [read, readAll, Input.read, Reading.readText_eq, hlines, Reading.readLines, hstatements,
    Reading.gather]
  have hfaults := Reading.Alike.faulty hread
  rw [Bool.or_false, Bool.or_false] at hfaults
  refine ⟨hfaults, ?_⟩
  simp only [Assembly.placeAt, Program.leaves, Program.root, Node.leaves, Node.leavesAll,
    Option.toList_some, List.append_nil, List.cons_append, List.nil_append, List.map_cons]
  exact congrArg _ hitems

end Source

/-! ## Compiling -/

namespace Assembly

theorem hasErrors_ofProgram {options : Options} {program : Program} {diagnostics : Diagnostics}
    (h : (ofProgram options program diagnostics).diagnostics.hasErrors = false) :
    diagnostics.hasErrors = false := by
  have hfinished : (finished options program diagnostics).Clean := (placed_finished h).2.1
  exact of_foldl (P := Workspace.Clean) (fun _ _ => Stage.clean_of_go) hfinished

theorem like_of_items {program program' : Program}
    (h : program.leaves.map (·.2.item) = program'.leaves.map (·.2.item)) :
    program.root.Like (fun _ _ => True) program'.root := by
  rw [← List.forall₂_eq_eq_eq, List.forall₂_map_left_iff, List.forall₂_map_right_iff] at h
  exact h.imp fun _ _ hitem => ⟨trivial, hitem⟩

theorem like_of_empty {d d' : Diagnostics} (h : d.hasErrors = false ∧ d.warnings = [])
    (h' : d'.hasErrors = false ∧ d'.warnings = []) : d.Like (fun _ _ => True) d' := by
  obtain ⟨errors, warnings⟩ := d
  obtain ⟨errors', warnings'⟩ := d'
  simp only [Diagnostics.hasErrors, Bool.not_eq_false', List.isEmpty_iff] at h h'
  obtain ⟨rfl, rfl⟩ := h
  obtain ⟨rfl, rfl⟩ := h'
  exact ⟨.nil, .nil⟩

/-- **The statement that sets an address and the line that sets it** make the same of a text: a
fault is found with both or with none, and without a fault the images are the same. -/
theorem ofProgram_placeAt (options : Options) (fs : FileSystem) (name name' : String) {start : Nat}
    (hstart : start ≤ Int64.maxValue.toInt.toNat) (text : List Char) {alone : Source.Outcome}
    (halone : Source.read options.cpu fs (.ok []) [.text name text ""] = alone) :
    (ofProgram options (placeAt start alone.program) alone.diagnostics).diagnostics.hasErrors =
        (ofText options fs name' (Source.originLine start ++ text)).diagnostics.hasErrors ∧
      ((ofText options fs name' (Source.originLine start ++ text)).diagnostics.hasErrors = false →
        (ofProgram options (placeAt start alone.program) alone.diagnostics).image =
          (ofText options fs name' (Source.originLine start ++ text)).image) := by
  obtain ⟨hfaults, hitems⟩ := Source.read_origin options.cpu fs (.ok []) name name' hstart text
  have hnumbers := Source.numbered_read options.cpu fs (.ok []) [.text name text ""]
  have hnumbers' := Source.numbered_read options.cpu fs (.ok [])
    [.text name' (Source.originLine start ++ text) ""]
  have hwarnings := Source.warnings_read options.cpu fs (.ok []) [.text name text ""]
  have hwarnings' := Source.warnings_read options.cpu fs (.ok [])
    [.text name' (Source.originLine start ++ text) ""]
  simp only [ofText, ofSources_eq]
  rw [halone] at hfaults hitems hnumbers hwarnings
  generalize Source.read options.cpu fs (.ok [])
    [.text name' (Source.originLine start ++ text) ""] = behind at *
  cases hclean : alone.diagnostics.hasErrors with
  | true =>
    -- A fault of reading stays to the end.
    have hall {program : Program} {diagnostics : Diagnostics} (h : diagnostics.hasErrors = true) :
        (ofProgram options program diagnostics).diagnostics.hasErrors = true := by
      by_contra hnone
      rw [hasErrors_ofProgram (Bool.eq_false_iff.mpr hnone)] at h
      cases h
    rw [hall hclean, hall (hfaults ▸ hclean)]
    exact ⟨rfl, fun h => absurd h (by simp)⟩
  | false =>
    obtain ⟨himage, -, hdiagnostics⟩ := like_ofProgram (R := fun _ _ => True)
      ⟨trivial, fun _ _ => trivial⟩ options (like_of_items hitems)
      (like_of_empty ⟨hclean, hwarnings⟩ ⟨hfaults ▸ hclean, hwarnings'⟩)
      (hnumbers.placeAt start) hnumbers'
    exact ⟨hdiagnostics.hasErrors, fun _ => himage⟩

/-- **Compiling a text at an address is assembling it behind the line that sets the address.**
Compiling succeeds exactly if assembling finds no fault, and then it gives the bytes that assembling
gives. -/
theorem compile_eq_ok_iff (fs : FileSystem) (name : String) (text : List Char) (start : UInt16)
    (bytes : Array UInt8) :
    compile fs text start.toNat = .ok bytes ↔
      (ofText {} fs name
          ((".org " ++ Text.decimal start.toNat ++ "\n").toList ++ text)).diagnostics.hasErrors =
        false ∧
      (ofText {} fs name
          ((".org " ++ Text.decimal start.toNat ++ "\n").toList ++ text)).image.bytes = bytes := by
  have hstart : start.toNat ≤ Int64.maxValue.toInt.toNat :=
    Nat.le_trans (Nat.le_of_lt start.toNat_lt) (by decide)
  obtain ⟨herrors, himage⟩ := ofProgram_placeAt {} fs inputName name hstart text rfl
  rw [← Source.originLine]
  simp only [compile_eq]
  cases hassembled :
      (ofText {} fs name (Source.originLine start.toNat ++ text)).diagnostics.hasErrors with
  | true =>
    rw [if_pos (herrors.trans hassembled)]
    simp
  | false =>
    rw [if_neg (by rw [herrors, hassembled]; simp), himage hassembled]
    simp

example : (compile .empty "here: jmp here".toList 0x1000).toOption = some #[0x4c, 0x00, 0x10] := by
  decide +kernel

end Assembly
end Assembler6502
