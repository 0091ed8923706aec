import Mathlib.Data.List.Induction
import Assembler6502.Proofs.Codec
import Assembler6502.Proofs.Numerals
import Assembler6502.Proofs.LineReading
import Assembler6502.Proofs.Spelling

/-!
# Reading listings

The text of what was decoded is read back. Numerals denote the numbers that they were made of, every
operation is known by its name, and the marks around an operand tell its shape. So each line of a
listing is read as one item, without a fault, and the item says what was decoded, except that a mode
is open where it depends on the value of the operand.

## Main definitions

* `Value.hexWord`, `Mode.chars`, `Mode.lexemes`: an operand as characters and as tokens
* `Decoded.lexemes`, `Decoded.readItem`: the tokens of a line, and the item that they are read as
* `Decoded.source`: a listing as a source

## Main results

* `Text.readNumeral?_hexUpper`, `Mnemonic.ofText?_name`: numerals and names are read back
* `Decoded.spells_text`: the text of what was decoded is spelled with its tokens
* `Source.readPhrase_lexemes`: the tokens of a line are read as what was decoded
* `Source.read_source`: a listing is read as its origin and what was decoded
-/

namespace Assembler6502

/-! ## Numerals -/

namespace Text

theorem digit?_digitChar : ∀ d < 16, digit? 16 (Nat.digitChar d).toUpper = some d := by
  decide

theorem readDigits?_replicate_zero (count : Nat) (cs : List Char) :
    readDigits? 16 0 (List.replicate count '0' ++ cs) = readDigits? 16 0 cs := by
  induction count with
  | zero => rfl
  | succ count ih => exact ih

theorem readNumeral?_hexUpper (width n : Nat) :
    readNumeral? 16 (hexUpper width n).toList = some n := by
  have hne : ((Nat.toDigits 16 n).map Char.toUpper).leftpad width '0' ≠ [] := by
    simp [List.leftpad, Nat.toDigits_ne_nil]
  rw [hexUpper, String.toList_ofList, readNumeral?, if_neg (by simp), List.leftpad,
    readDigits?_replicate_zero, readDigits?_toDigits (by decide) digit?_digitChar]

theorem isWordChar_digitChar : ∀ d < 16, Cursor.isWordChar (Nat.digitChar d).toUpper = true := by
  decide

theorem all_isWordChar_hexUpper (width n : Nat) :
    (hexUpper width n).toList.all Cursor.isWordChar = true := by
  rw [hexUpper, String.toList_ofList, List.leftpad, List.all_append, Bool.and_eq_true]
  refine ⟨List.all_eq_true.2 fun c hc => ?_, List.all_eq_true.2 fun c hc => ?_⟩
  · obtain rfl := (List.mem_replicate.1 hc).2
    decide
  · obtain ⟨d, hd, rfl⟩ := List.mem_map.1 hc
    exact forall_mem_toDigits (P := fun c => Cursor.isWordChar c.toUpper = true) (by decide)
      isWordChar_digitChar _ d hd

end Text

namespace Value

/-- A value as it is written in a listing. -/
def hexWord (width : Nat) (v : Value) : List Char :=
  '$' :: (v.hexUpper width).toList

theorem isWord_hexWord (width : Nat) (v : Value) : Cursor.IsWord (v.hexWord width) = true :=
  Cursor.isWord_cons.2 ⟨by decide, by decide, Text.all_isWordChar_hexUpper _ _⟩

theorem value_hexWord (width : Nat) {v : Value} (h : 0 ≤ v) :
    (Cursor.classify (v.hexWord width)).value = .ok v := by
  have hclassify : Cursor.classify (v.hexWord width) = .hex (v.hexUpper width).toList := by
    simp [hexWord, Cursor.classify]
  have hnat : v.toUInt64.toNat = v.toInt.toNat := Int64.toNat_toUInt64_of_le h
  have hint : (v.toInt.toNat : Int) = v.toInt :=
    Int.toNat_of_nonneg (Int64.le_iff_toInt_le.1 h)
  have hmax : v.toInt.toNat ≤ Int64.maxValue.toInt.toNat :=
    Int.toNat_le_toNat (Int64.le_iff_toInt_le.1 (Int64.le_maxValue v))
  rw [hclassify, Lexeme.value, Lexeme.numeralValue, Value.hexUpper, Text.readNumeral?_hexUpper,
    Option.bind_some, Value.ofNat?, hnat, if_pos hmax]
  simp only [← Int64.ofInt_eq_ofNat, hint, Int64.ofInt_toInt]

end Value

namespace Mnemonic

/-- The name of an operation as it is read. -/
def name (m : Mnemonic) : String :=
  String.ofList (Text.lowercase m.text.toList)

theorem mem_all (m : Mnemonic) : m ∈ all := by
  cases m <;> decide

theorem isWord_text (m : Mnemonic) : Cursor.IsWord m.text.toList = true := by
  cases m <;> decide +kernel

theorem classify_text (m : Mnemonic) : Cursor.classify m.text.toList = .identifier m.name := by
  cases m <;> decide +kernel

theorem toUpper_name (m : Mnemonic) : m.name.toList.map Char.toUpper = m.text.toList := by
  cases m <;> decide +kernel

theorem nodup_text : (all.map fun m => m.text.toList).Nodup := by
  have h : Keyed.distinct 0 ((all.map fun m => m.text.toList).map fun cs =>
      cs.foldl (fun n c => 43 * n + (c.toNat - 48)) 0) = true := by
    decide +kernel
  exact (Keyed.nodup_of_distinct h).1.of_map _

theorem ofText?_name (m : Mnemonic) : ofText? m.name.toList = some m := by
  have hkey (other : Mnemonic) : (other.text.toList == m.name.toList.map Char.toUpper) = true ↔
      other.text.toList = m.text.toList := by
    rw [m.toUpper_name, beq_iff_eq]
  exact (Keyed.find?_eq_some_iff _ hkey nodup_text).2 ⟨m.mem_all, rfl⟩

end Mnemonic

/-! ## The written form of operands -/

namespace OperandShape

/-- The tokens of an operand. -/
def lexemes (numeral : Lexeme) : OperandShape → List Lexeme
  | memory => [numeral]
  | memoryX => [numeral, .mark .comma, .identifier "x"]
  | memoryY => [numeral, .mark .comma, .identifier "y"]
  | pointer => [.mark .parenLeft, numeral, .mark .parenRight]
  | pointerX => [.mark .parenLeft, numeral, .mark .comma, .identifier "x", .mark .parenRight]
  | pointerY => [.mark .parenLeft, numeral, .mark .parenRight, .mark .comma, .identifier "y"]

/-- The characters of an operand. -/
def chars (numeral : List Char) : OperandShape → List Char
  | memory => numeral
  | memoryX => numeral ++ [',', 'X']
  | memoryY => numeral ++ [',', 'Y']
  | pointer => '(' :: numeral ++ [')']
  | pointerX => '(' :: numeral ++ [',', 'X', ')']
  | pointerY => '(' :: numeral ++ [')', ',', 'Y']

end OperandShape

namespace Mode

/-- The shape in which an operand is written, unless a mark of its own tells its mode. -/
def shape? : Mode → Option OperandShape
  | implied | immediate | immediateWord => none
  | zeroPage | absolute | relative | relativeWord => some .memory
  | zeroPageX | absoluteX => some .memoryX
  | zeroPageY | absoluteY => some .memoryY
  | indirect | zeroPageIndirect => some .pointer
  | indexedIndirect | zeroPageIndexedIndirect => some .pointerX
  | indirectIndexed | zeroPageIndirectIndexed => some .pointerY

/-- The number of digits of an operand. -/
def digits (mode : Mode) : Nat :=
  if mode.operandSize = 1 ∧ mode ≠ .relative then 2 else 4

/-- The tokens of an operand. -/
def lexemes (mode : Mode) (numeral : Lexeme) : List Lexeme :=
  match mode.shape? with
  | some shape => shape.lexemes numeral
  | none => [.mark .hash, numeral]

/-- The characters of an operand. -/
def chars (mode : Mode) (numeral : List Char) : List Char :=
  match mode.shape? with
  | some shape => shape.chars numeral
  | none => '#' :: numeral

end Mode

theorem Instruction.text_constant {m : Mnemonic} {mode : Mode} {v : Value}
    (h : mode.operandSize ≠ 0) :
    (⟨m, .resolved mode, some (.constant v)⟩ : Instruction).text.toList =
      m.text.toList ++ ' ' :: mode.chars (v.hexWord mode.digits) := by
  cases mode with
  | implied => exact absurd rfl h
  | _ =>
    simp [text, operandText, Mode.chars, Mode.shape?, OperandShape.chars, Mode.digits,
      Mode.operandSize, Value.hexWord]

/-! ## Tokens of listings -/

section Spelling

open Token (Spells)

variable {word cs : List Char} {ls : List Lexeme}

theorem Token.Spells.register {x : Char} {name : String} (hx : Cursor.IsWord [x] = true)
    (hname : Cursor.classify [x] = .identifier name) (hend : Cursor.EndsWord cs = true)
    (h : Spells ls cs) : Spells (.identifier name :: ls) (x :: cs) :=
  hname ▸ Spells.word hx hend h

theorem OperandShape.spells (shape : OperandShape) (hword : Cursor.IsWord word = true)
    (hend : Cursor.EndsWord cs = true) (h : Spells ls cs) :
    Spells (shape.lexemes (Cursor.classify word) ++ ls) (shape.chars word ++ cs) := by
  have hx {ls cs} (hend : Cursor.EndsWord cs = true) (h : Spells ls cs) :
      Spells (.identifier "x" :: ls) ('X' :: cs) :=
    h.register (by decide) (by decide) hend
  have hy {ls cs} (hend : Cursor.EndsWord cs = true) (h : Spells ls cs) :
      Spells (.identifier "y" :: ls) ('Y' :: cs) :=
    h.register (by decide) (by decide) hend
  cases shape <;>
    simp only [lexemes, chars, List.cons_append, List.nil_append, List.append_assoc]
  case memory => exact .word hword hend h
  case memoryX => exact .word hword rfl (.mark .comma (hx hend h))
  case memoryY => exact .word hword rfl (.mark .comma (hy hend h))
  case pointer => exact .mark .parenLeft (.word hword rfl (.mark .parenRight h))
  case pointerX =>
    exact .mark .parenLeft (.word hword rfl (.mark .comma (hx rfl (.mark .parenRight h))))
  case pointerY =>
    exact .mark .parenLeft (.word hword rfl (.mark .parenRight (.mark .comma (hy hend h))))

theorem Mode.spells (mode : Mode) (hword : Cursor.IsWord word = true)
    (hend : Cursor.EndsWord cs = true) (h : Spells ls cs) :
    Spells (mode.lexemes (Cursor.classify word) ++ ls) (mode.chars word ++ cs) := by
  unfold lexemes chars
  cases mode.shape? with
  | some shape => exact shape.spells hword hend h
  | none => exact .mark .hash (.word hword hend h)

end Spelling

namespace Decoded

/-- The tokens of a line of a listing. -/
def lexemes : Decoded → List Lexeme
  | instruction ⟨m, .resolved mode, some (.constant v)⟩ =>
    .identifier m.name :: mode.lexemes (Cursor.classify (v.hexWord mode.digits))
  | instruction i => [.identifier i.mnemonic.name]
  | byte b =>
    [.mark .dot, .identifier "byte", Cursor.classify (Value.hexWord 2 (Int64.ofNat b.toNat))]

variable {cpu : Cpu} {address : Nat} {d : Decoded}

/-- **The text of what was decoded** is spelled with its tokens. -/
theorem spells_text (hd : d.Encodable cpu address) {ls : List Lexeme} {cs : List Char}
    (h : Token.Spells ls cs) :
    Token.Spells (d.lexemes ++ .endOfLine :: ls) (d.text.toList ++ '\n' :: cs) := by
  -- A line is put together from its end, as a word needs to know what follows it.
  have hline : Token.Spells (.endOfLine :: ls) ('\n' :: cs) := .newline h
  cases d with
  | instruction i =>
    cases hd with
    | @bare m mode hmode hsize =>
      have hname : Token.Spells (Cursor.classify m.text.toList :: .endOfLine :: ls)
          (m.text.toList ++ '\n' :: cs) := .word m.isWord_text rfl hline
      rwa [m.classify_text] at hname
    | @operand m mode v hmode hsize hv =>
      have hoperand := mode.spells (Value.isWord_hexWord mode.digits v) rfl hline
      have hname := Token.Spells.word m.isWord_text rfl hoperand.blank
      rw [m.classify_text] at hname
      rw [text, Instruction.text_constant hsize, List.append_assoc]
      exact hname
  | byte b =>
    have hdigits : (Decoded.byte b).text.toList =
        '.' :: (['b', 'y', 't', 'e'] ++ ' ' :: Value.hexWord 2 (Int64.ofNat b.toNat)) := by
      simp [text, Value.hexWord, Value.hexUpper]
    have hname : Cursor.classify ['b', 'y', 't', 'e'] = .identifier "byte" := by decide
    have hword := Token.Spells.word (Value.isWord_hexWord 2 (Int64.ofNat b.toNat)) rfl hline
    have hbyte := Token.Spells.word (w := ['b', 'y', 't', 'e']) (by decide) rfl hword.blank
    rw [hname] at hbyte
    rw [hdigits]
    exact .mark .dot hbyte

theorem isLineEnd_lexemes (d : Decoded) : ∀ l ∈ d.lexemes, l.isLineEnd = false := by
  have hmode (mode : Mode) (w : List Char) :
      ∀ l ∈ mode.lexemes (Cursor.classify w), l.isLineEnd = false := by
    cases mode <;> simp [Mode.lexemes, Mode.shape?, OperandShape.lexemes]
  unfold lexemes
  split
  · simpa using hmode _ _
  · simp
  · simp

end Decoded

/-! ## Reading lines -/

theorem Lexeme.isNumber_of_value {l : Lexeme} {v : Value} (h : l.value = .ok v) :
    l.isNumber = true := by
  cases l with
  | hex _ | binary _ | octal _ | decimal _ | character _ => rfl
  | string _ | identifier _ | mark _ | endOfLine | endOfFile => cases h

namespace Expr

/-- Whether no operator stands at the beginning of some tokens. -/
def Ends (ts : List Token) : Prop :=
  leadingOperator? bitwise ts = none ∧ leadingOperator? additive ts = none ∧
    leadingOperator? multiplicative ts = none

theorem readLevel_of_ends {level : Level} {operand : Reader Expr} {ts rest : List Token} {e : Expr}
    (h : operand ts = .ok (e, rest)) (hrest : leadingOperator? level rest = none) :
    readLevel level operand ts = .ok (e, rest) := by
  have hnone : readOperations level operand rest.length rest = .ok ([], rest) := by
    cases hlength : rest.length <;> simp [readOperations, hrest]
  simp [readLevel, h, hnone, bind, Except.bind, pure, Except.pure, chained]

/-- A numeral is read as what its value is. -/
theorem readAtom_eq {count depth : Nat} {l : Lexeme} {p : Position} {rest : List Token}
    (h : l.isNumber = true) : readAtom count (depth + 1) (⟨l, p⟩ :: rest) =
      l.value.map fun v => (.constant v, rest) := by
  cases l with
  | hex _ | binary _ | octal _ | decimal _ | character _ =>
    simp only [readAtom, h, if_true]
    cases Lexeme.value _ <;> rfl
  | string _ | identifier _ | mark _ | endOfLine | endOfFile => cases h

theorem readAtom_number {count depth : Nat} {l : Lexeme} {p : Position} {rest : List Token}
    {v : Value} (hv : l.value = .ok v) :
    readAtom count (depth + 1) (⟨l, p⟩ :: rest) = .ok (.constant v, rest) := by
  rw [readAtom_eq (Lexeme.isNumber_of_value hv), hv]
  rfl

/-- A numeral with no operator behind it is read as a constant. -/
theorem read_number {count : Nat} {l : Lexeme} {p : Position} {rest : List Token} {v : Value}
    (hv : l.value = .ok v) (hrest : Ends rest) :
    read count (⟨l, p⟩ :: rest) = .ok (.constant v, rest) := by
  have hatom : readAtom count (⟨l, p⟩ :: rest : List Token).length (⟨l, p⟩ :: rest) =
      .ok (.constant v, rest) := readAtom_number hv
  exact readLevel_of_ends (readLevel_of_ends (readLevel_of_ends hatom hrest.2.2) hrest.2.1) hrest.1

end Expr

theorem Token.of_map_cons {ts : List Token} {l : Lexeme} {ls : List Lexeme}
    (h : ts.map (·.lexeme) = l :: ls) :
    ∃ p rest, ts = ⟨l, p⟩ :: rest ∧ rest.map (·.lexeme) = ls := by
  obtain ⟨⟨l, p⟩, rest, rfl, rfl, hrest⟩ := List.map_eq_cons_iff.1 h
  exact ⟨p, rest, rfl, hrest⟩

theorem Token.exists_positions {ts : List Token} {ls : List Lexeme}
    (h : ts.map (·.lexeme) = ls) :
    ∃ ps : List Position, ps.length = ls.length ∧ ts = List.zipWith Token.mk ls ps := by
  refine ⟨ts.map (·.position), by rw [← h, List.length_map, List.length_map], ?_⟩
  rw [← h, List.zipWith_map, List.zipWith_self, List.map_id']

namespace Source

variable {g : Setting} {m : Mnemonic} {mode : Mode} {l : Lexeme} {v : Value} {ts : List Token}

theorem Setting.readMnemonic_name {p : Position} (hm : g.cpu.hasMnemonic m = true) :
    g.readMnemonic (⟨.identifier m.name, p⟩ :: ts) = .ok (m, ts) := by
  simp [readMnemonic, readIdentifier, m.ofText?_name, hm, bind, Except.bind, pure, Except.pure,
    Option.filter]

/-- Behind the name of an operation, a numeral starts a plain operand. -/
theorem Setting.readInstruction_number {p q : Position} {rest : List Token}
    (hm : g.cpu.hasMnemonic m = true) (hv : l.value = .ok v) (hrest : Expr.Ends rest) :
    g.readInstruction (⟨.identifier m.name, p⟩ :: ⟨l, q⟩ :: rest) =
      (do
        let (shape, ts) ← readMemoryShape rest
        expectEnd ts
        return .pending m shape (.constant v)) := by
  have hread : g.readExpr (⟨l, q⟩ :: rest) = .ok (.constant v, rest) := Expr.read_number hv hrest
  have hl := Lexeme.isNumber_of_value hv
  rw [readInstruction, readMnemonic_name hm]
  cases l with
  | hex ds | binary ds | octal ds | decimal ds | character cs =>
    simp only [bind, Except.bind, Token.first, hread]
  | string _ | identifier _ | mark _ | endOfLine | endOfFile => cases hl

/-- Behind the name of an operation, a parenthesis starts an operand that is a pointer. -/
theorem Setting.readInstruction_paren {p q r : Position} {rest : List Token}
    (hm : g.cpu.hasMnemonic m = true) (hv : l.value = .ok v) (hrest : Expr.Ends rest) :
    g.readInstruction (⟨.identifier m.name, p⟩ :: ⟨.mark .parenLeft, q⟩ :: ⟨l, r⟩ :: rest) =
      (do
        let (shape, ts) ← readPointerShape rest
        expectEnd ts
        return .pending m shape (.constant v)) := by
  have hread : g.readExpr (⟨l, r⟩ :: rest) = .ok (.constant v, rest) := Expr.read_number hv hrest
  rw [readInstruction, readMnemonic_name hm]
  simp only [bind, Except.bind, Token.first, List.tail_cons, hread]

/-- An operand in a shape that leaves its mode open is read as such. -/
theorem Setting.readInstruction_shape {shape : OperandShape} (hm : g.cpu.hasMnemonic m = true)
    (hv : l.value = .ok v)
    (hts : ts.map (·.lexeme) = .identifier m.name :: (shape.lexemes l ++ [.endOfLine])) :
    g.readInstruction ts = .ok (.pending m shape (.constant v)) := by
  obtain ⟨ps, hlength, rfl⟩ := Token.exists_positions hts
  -- Where the tokens stand does not matter, only how many there are.
  cases shape with
  | memory =>
    match ps, hlength with
    | [_, _, _], _ => exact readInstruction_number hm hv ⟨rfl, rfl, rfl⟩
  | memoryX | memoryY =>
    match ps, hlength with
    | [_, _, _, _, _], _ => exact readInstruction_number hm hv ⟨rfl, rfl, rfl⟩
  | pointer =>
    match ps, hlength with
    | [_, _, _, _, _], _ => exact readInstruction_paren hm hv ⟨rfl, rfl, rfl⟩
  | pointerX | pointerY =>
    match ps, hlength with
    | [_, _, _, _, _, _, _], _ => exact readInstruction_paren hm hv ⟨rfl, rfl, rfl⟩

theorem Setting.readInstruction_immediate (hm : g.cpu.hasMnemonic m = true) (hv : l.value = .ok v)
    (hts : ts.map (·.lexeme) = [.identifier m.name, .mark .hash, l, .endOfLine]) :
    g.readInstruction ts = .ok (.resolved m (g.immediateMode m) (.constant v)) := by
  obtain ⟨ps, hlength, rfl⟩ := Token.exists_positions hts
  match ps, hlength with
  | [_, _, p, q], _ =>
    have hread : g.readExpr [⟨l, p⟩, ⟨.endOfLine, q⟩] = .ok (.constant v, [⟨.endOfLine, q⟩]) :=
      Expr.read_number hv ⟨rfl, rfl, rfl⟩
    simp only [List.zipWith_cons_cons, List.zipWith_nil_left]
    rw [readInstruction, readMnemonic_name hm]
    simp only [bind, Except.bind, Token.first, List.tail_cons, hread]
    rfl

theorem Setting.readInstruction_implied (hm : g.cpu.hasMnemonic m = true)
    (hts : ts.map (·.lexeme) = [.identifier m.name, .endOfLine]) :
    g.readInstruction ts = .ok (.implied m) := by
  obtain ⟨p, rest, rfl, hrest⟩ := Token.of_map_cons hts
  obtain ⟨q, _, rfl, -⟩ := Token.of_map_cons hrest
  rw [readInstruction, readMnemonic_name hm]
  rfl

theorem readPhrase_directive {name : String}
    (hts : ts.map (·.lexeme) = [.mark .dot, .identifier name, l, .endOfLine]) :
    ∃ p q, readPhrase g ts = g.readDirective name [⟨l, p⟩, ⟨.endOfLine, q⟩] := by
  obtain ⟨ps, hlength, rfl⟩ := Token.exists_positions hts
  match ps, hlength with
  | [_, _, p, q], _ => exact ⟨p, q, rfl⟩

theorem readPhrase_org (hv : l.value = .ok v)
    (hts : ts.map (·.lexeme) = [.mark .dot, .identifier "org", l, .endOfLine]) :
    readPhrase g ts = .ok (.item (.setPc (.constant v))) := by
  obtain ⟨p, q, hdirective⟩ := readPhrase_directive (g := g) hts
  have hread : g.readExpr [⟨l, p⟩, ⟨.endOfLine, q⟩] = .ok (.constant v, [⟨.endOfLine, q⟩]) :=
    Expr.read_number hv ⟨rfl, rfl, rfl⟩
  rw [hdirective]
  simp only [Setting.readDirective, Setting.readSingle, hread]
  rfl

theorem readPhrase_byte (hv : l.value = .ok v)
    (hts : ts.map (·.lexeme) = [.mark .dot, .identifier "byte", l, .endOfLine]) :
    readPhrase g ts = .ok (.item (.data .byte .little [.constant v])) := by
  obtain ⟨p, q, hdirective⟩ := readPhrase_directive (g := g) hts
  have hread : g.readExpr [⟨l, p⟩, ⟨.endOfLine, q⟩] = .ok (.constant v, [⟨.endOfLine, q⟩]) :=
    Expr.read_number hv ⟨rfl, rfl, rfl⟩
  have hvalue : g.readValue true [⟨l, p⟩, ⟨.endOfLine, q⟩] =
      .ok ([.constant v], [⟨.endOfLine, q⟩]) := by
    cases l with
    | string cs => cases hv
    | _ =>
      simp only [Setting.readValue, hread]
      rfl
  rw [hdirective]
  simp only [Setting.readDirective, Setting.readValues, Setting.readValuesFrom, hvalue]
  rfl

end Source

/-! ## What is read -/

namespace Cpu

variable {cpu : Cpu} {m : Mnemonic} {mode : Mode}

theorem hasMode_iff : cpu.hasMode m mode = true ↔ ∃ opcode, ⟨m, mode, opcode⟩ ∈ cpu.encodings := by
  simp only [hasMode, Option.isSome_iff_exists, opcode?_eq_some_iff]

theorem hasMnemonic_of_hasMode (h : cpu.hasMode m mode = true) : cpu.hasMnemonic m = true := by
  obtain ⟨opcode, hopcode⟩ := hasMode_iff.1 h
  exact List.any_eq_true.2 ⟨_, hopcode, beq_self_eq_true m⟩

/-- The operation alone tells whether an instruction is a branch, and whether it has a word behind a
hash mark. -/
theorem mode_of_operation (h : cpu.hasMode m mode = true) :
    (mode = .relative ↔ m.inverse?.isSome = true ∨ m = .bra) ∧
      (mode = .relativeWord ↔ m = .bsr) ∧
      (mode = .immediateWord → m = .phw) ∧ (mode = .immediate → m ≠ .phw) := by
  have htable : ∀ e ∈ cpu.encodings,
      (e.mode = .relative ↔ e.mnemonic.inverse?.isSome = true ∨ e.mnemonic = .bra) ∧
        (e.mode = .relativeWord ↔ e.mnemonic = .bsr) ∧
        (e.mode = .immediateWord → e.mnemonic = .phw) ∧
        (e.mode = .immediate → e.mnemonic ≠ .phw) := by
    cases cpu <;> decide +kernel
  obtain ⟨opcode, hopcode⟩ := hasMode_iff.1 h
  exact htable _ hopcode

end Cpu

/-- The instruction as it is read: where the mode depends on the value of the operand, or on the
operation, it is open. -/
def Instruction.asRead (i : Instruction) : Instruction :=
  match i.addressing with
  | .pending _ => i
  | .resolved mode =>
    match mode.shape? with
    | some shape => { i with addressing := .pending shape }
    | none => i

/-- The item as it is read. -/
def Decoded.readItem : Decoded → Item
  | instruction i => .instruction i.asRead
  | byte b => .data .byte .little [.constant (Int64.ofNat b.toNat)]

namespace Source

variable {g : Setting} {ts : List Token} {address : Nat} {d : Decoded}

theorem Setting.immediateMode_eq {m : Mnemonic} {mode : Mode} (h : g.cpu.hasMode m mode = true)
    (hmode : mode = .immediate ∨ mode = .immediateWord) : g.immediateMode m = mode := by
  obtain ⟨-, -, hword, hbyte⟩ := Cpu.mode_of_operation h
  obtain rfl | rfl := hmode
  · simp [immediateMode, h]
  · have hnone : g.cpu.hasMode m .immediate = false := by
      refine Bool.eq_false_iff.2 fun himmediate => ?_
      exact (Cpu.mode_of_operation himmediate).2.2.2 rfl (hword rfl)
    simp [immediateMode, h, hnone]

theorem readPhrase_name {name : String} {ls : List Lexeme}
    (hts : ts.map (·.lexeme) = .identifier name :: ls) :
    readPhrase g ts = (do return .item (.instruction (← g.readInstruction ts))) := by
  obtain ⟨p, _, rfl, -⟩ := Token.of_map_cons hts
  rfl

/-- **The tokens of a line are read** as what was decoded. -/
theorem readPhrase_lexemes (hd : d.Encodable g.cpu address)
    (hts : ts.map (·.lexeme) = d.lexemes ++ [.endOfLine]) :
    readPhrase g ts = .ok (.item d.readItem) := by
  cases d with
  | byte b =>
    have hlt := b.toNat_lt
    have hb : 0 ≤ Int64.ofNat b.toNat := by
      rw [Int64.le_iff_toInt_le, Int64.toInt_ofNat_of_lt (by omega)]
      exact Int.natCast_nonneg _
    exact readPhrase_byte (Value.value_hexWord 2 hb) hts
  | instruction i =>
    cases hd with
    | @bare m mode hmode hsize =>
      obtain rfl : mode = .implied := by cases mode <;> cases hsize; rfl
      rw [readPhrase_name hts,
        Setting.readInstruction_implied (Cpu.hasMnemonic_of_hasMode hmode) hts]
      rfl
    | @operand m mode v hmode hsize hv =>
      have hm := Cpu.hasMnemonic_of_hasMode hmode
      have hvalue := Value.value_hexWord mode.digits (Int64.le_iff_toInt_le.2 hv.nonneg)
      rw [readPhrase_name hts]
      cases hshape : mode.shape? with
      | some shape =>
        have hlexemes : mode.lexemes (Cursor.classify (v.hexWord mode.digits)) =
            shape.lexemes (Cursor.classify (v.hexWord mode.digits)) := by
          simp only [Mode.lexemes, hshape]
        rw [Decoded.lexemes, hlexemes] at hts
        -- Which mode it is, is left open: the line is read as an operand in this shape.
        rw [Setting.readInstruction_shape hm hvalue hts]
        simp only [Decoded.readItem, Instruction.asRead, hshape]
        rfl
      | none =>
        have hhash : mode = .immediate ∨ mode = .immediateWord := by
          cases mode <;> simp_all [Mode.shape?, Mode.operandSize]
        have hlexemes : mode.lexemes (Cursor.classify (v.hexWord mode.digits)) =
            [.mark .hash, Cursor.classify (v.hexWord mode.digits)] := by
          simp only [Mode.lexemes, hshape]
        rw [Decoded.lexemes, hlexemes] at hts
        rw [Setting.readInstruction_immediate hm hvalue hts, Setting.immediateMode_eq hmode hhash]
        simp only [Decoded.readItem, Instruction.asRead, hshape]
        rfl

theorem takeLabels_of_lexemes {count : Nat} {l₁ l₂ : Lexeme} {ls : List Lexeme}
    (hts : ts.map (·.lexeme) = l₁ :: l₂ :: ls) (h₁ : l₁ ≠ .mark .star) (h₂ : l₂ ≠ .mark .colon) :
    takeLabels count ts = ([], count, ts) := by
  obtain ⟨p₁, _, rfl, hrest⟩ := Token.of_map_cons hts
  obtain ⟨p₂, _, rfl, -⟩ := Token.of_map_cons hrest
  unfold takeLabels
  split
  · simp_all
  · simp_all
  · rfl

/-- The tokens of a line do not start with a label. -/
theorem takeLabels_lexemes (count : Nat) (hd : d.Encodable g.cpu address)
    (hts : ts.map (·.lexeme) = d.lexemes ++ [.endOfLine]) :
    takeLabels count ts = ([], count, ts) := by
  cases d with
  | byte b => exact takeLabels_of_lexemes hts (by simp) (by simp)
  | instruction i =>
    cases hd with
    | bare hmode hsize => exact takeLabels_of_lexemes hts (by simp) (by simp)
    | @operand m mode v hmode hsize hv =>
      have hnumber := Lexeme.isNumber_of_value
        (Value.value_hexWord mode.digits (Int64.le_iff_toInt_le.2 hv.nonneg))
      have hne : Cursor.classify (v.hexWord mode.digits) ≠ .mark .colon := by
        intro h
        rw [h] at hnumber
        cases hnumber
      cases mode <;> exact takeLabels_of_lexemes hts (by simp) (by simp [hne])

end Source

/-! ## Reading a listing -/

/-- A line has no faults, and is one item without a label, whatever was read before. -/
def Source.Line.Holds (cpu : Cpu) (line : Line) (item : Item) : Prop :=
  line.faults = [] ∧ ∀ charmap count,
    takeLabels count line.tokens = ([], count, line.tokens) ∧
      readPhrase ⟨cpu, charmap, count⟩ line.tokens = .ok (.item item)

/-- A line has no faults and becomes one node with an item, whatever was read before. -/
def Source.Line.Becomes (fs : FileSystem) (load : Reading.Loader) (file directory : String)
    (cpu : Cpu) (line : Line) (item : Item) : Prop :=
  line.faults = [] ∧ ∀ r : Reading, r.cpu = cpu →
    ∃ location, r.readStatements fs load file directory line.tokens = r.make location [item]

namespace Reading

variable (fs : FileSystem) (load : Loader) (file directory : String) {r : Reading} {ts : List Token}

/-- A line without labels does what its phrase does. -/
theorem readStatements_phrase {phrase : Source.Phrase}
    (hlabels : Source.takeLabels r.anonymousLabels ts = ([], r.anonymousLabels, ts))
    (hphrase : Source.readPhrase ⟨r.cpu, r.charmap, r.anonymousLabels⟩ ts = .ok phrase) :
    ∃ location, r.readStatements fs load file directory ts =
      match r.perform fs load directory location phrase with
      | .ok (r, nodes) => (r, nodes)
      | .error e => (r.error location e, []) := by
  refine ⟨lineLocation file ts, ?_⟩
  have hnone : ({ r with anonymousLabels := r.anonymousLabels } : Reading).make
      (lineLocation file ts) [] = (r, []) := rfl
  simp only [readStatements, hlabels, List.map_nil, hnone, hphrase, bind, Except.bind]
  cases r.perform fs load directory _ phrase <;> rfl

theorem readStatements_item {item : Item}
    (hlabels : Source.takeLabels r.anonymousLabels ts = ([], r.anonymousLabels, ts))
    (hphrase : Source.readPhrase ⟨r.cpu, r.charmap, r.anonymousLabels⟩ ts = .ok (.item item)) :
    ∃ location, r.readStatements fs load file directory ts = r.make location [item] :=
  readStatements_phrase fs load file directory hlabels hphrase

end Reading

section Nodes

variable {fs : FileSystem} {load : Reading.Loader} {file directory : String} {cpu : Cpu}

theorem Source.Line.Holds.becomes {line : Line} {item : Item} (h : line.Holds cpu item) :
    line.Becomes fs load file directory cpu item := by
  obtain ⟨hfaults, hread⟩ := h
  refine ⟨hfaults, fun r hcpu => ?_⟩
  obtain ⟨hlabels, hphrase⟩ := hread r.charmap r.anonymousLabels
  exact Reading.readStatements_item fs load file directory hlabels (hcpu ▸ hphrase)

/-- **Lines with one item each** become one node each. -/
theorem Reading.readLines_items {r : Reading} {lines : List Source.Line} {items : List Item}
    (hcpu : r.cpu = cpu)
    (h : List.Forall₂ (Source.Line.Becomes fs load file directory cpu) lines items) :
    ∃ arena nodes, readLines fs load file directory r lines = ({ r with arena }, nodes) ∧
      (Node.leavesAll nodes).map (·.2.item) = items := by
  induction h generalizing r with
  | nil => exact ⟨r.arena, [], rfl, rfl⟩
  | @cons line item lines items hline h ih =>
    obtain ⟨hfaults, hread⟩ := hline
    obtain ⟨location, hstatements⟩ := hread r hcpu
    obtain ⟨arena, nodes, hnodes, hitems⟩ := ih (r := (r.make location [item]).1) hcpu
    refine ⟨arena, .leaf r.size ⟨location, item⟩ :: nodes, ?_, ?_⟩
    · simp only [readLines, hstatements, reportFaults, hfaults, List.foldl_nil, hnodes]
      rfl
    · simp [Node.leavesAll, Node.leaves, hitems]

/-- **A text of lines with one item each** is read as the program of these items. -/
theorem Source.read_items {stdin : Except FileError (List UInt8)} {text : List Char}
    {items : List Item}
    (h : List.Forall₂ (Line.Becomes fs (Reading.load fs) file directory cpu) (lines text) items) :
    (read cpu fs stdin [.text file text directory]).diagnostics = {} ∧
      (read cpu fs stdin [.text file text directory]).program.leaves.map (·.2.item) = items := by
  obtain ⟨arena, nodes, hnodes, hitems⟩ :=
    Reading.readLines_items (r := { cpu, input := stdin }) rfl h
  simp only [read, readAll, Input.read, Reading.readText_eq, hnodes]
  refine ⟨rfl, ?_⟩
  rw [← hitems]
  simp [Reading.gather, Program.leaves, Program.root, Node.leaves, Node.leavesAll]

end Nodes

/-- A listing as a source: an origin, and then what was decoded, one below the other. -/
def Decoded.source (numeral : List Char) (ds : List Decoded) : List Char :=
  ['.', 'o', 'r', 'g', ' '] ++ numeral ++ '\n' :: ds.flatMap fun d => d.text.toList ++ ['\n']

namespace Source

variable {cpu : Cpu} {address : Nat} {numeral : List Char} {v : Value} {ds : List Decoded}

/-- The tokens of the line that sets the origin. -/
def originLexemes (numeral : List Char) : List Lexeme :=
  [.mark .dot, .identifier "org", Cursor.classify numeral]

theorem spells_lines (h : Decoded.Fits cpu address ds) :
    Token.Spells (joined (ds.map Decoded.lexemes))
      (ds.flatMap fun d => d.text.toList ++ ['\n']) := by
  induction ds generalizing address with
  | nil => exact .nil
  | cons d ds ih =>
    have hline := Decoded.spells_text h.1 (ih h.2)
    simpa [joined] using hline

theorem spells_source (hword : Cursor.IsWord numeral = true) (h : Decoded.Fits cpu address ds) :
    Token.Spells (joined (originLexemes numeral :: ds.map Decoded.lexemes))
      (Decoded.source numeral ds) := by
  have horg : Cursor.classify ['o', 'r', 'g'] = .identifier "org" := by decide
  have hnumeral := Token.Spells.word hword rfl (spells_lines h).newline
  have hname := Token.Spells.word (w := ['o', 'r', 'g']) (by decide) rfl hnumeral.blank
  rw [horg] at hname
  exact hname.mark .dot

/-- The lines of a listing are read, each as what was decoded. -/
theorem forall₂_lines {lines : List Line} (h : Decoded.Fits cpu address ds)
    (hlines : lines.map (·.tokens.map (·.lexeme)) =
      (ds.map Decoded.lexemes).map (· ++ [.endOfLine]))
    (hfaults : ∀ line ∈ lines, line.faults = []) :
    List.Forall₂ (Line.Holds cpu) lines (ds.map Decoded.readItem) := by
  induction ds generalizing address lines with
  | nil =>
    obtain rfl := List.map_eq_nil_iff.1 hlines
    exact .nil
  | cons d ds ih =>
    obtain ⟨line, lines, rfl, hline, hrest⟩ := List.map_eq_cons_iff.1 hlines
    refine .cons ⟨hfaults line List.mem_cons_self, fun charmap count => ?_⟩
      (ih h.2 hrest fun line hline => hfaults line (List.mem_cons_of_mem _ hline))
    exact ⟨takeLabels_lexemes (g := ⟨cpu, charmap, count⟩) count h.1 hline,
      readPhrase_lexemes h.1 hline⟩

/-- **A listing is read** without a fault, as its origin and what was decoded. -/
theorem read_source (fs : FileSystem) (stdin : Except FileError (List UInt8)) (name : String)
    (hword : Cursor.IsWord numeral = true) (hv : (Cursor.classify numeral).value = .ok v)
    (h : Decoded.Fits cpu address ds) :
    (read cpu fs stdin [.text name (Decoded.source numeral ds) ""]).diagnostics = {} ∧
      (read cpu fs stdin [.text name (Decoded.source numeral ds) ""]).program.leaves.map
          (·.2.item) =
        .setPc (.constant v) :: ds.map Decoded.readItem := by
  have hends : ∀ line ∈ originLexemes numeral :: ds.map Decoded.lexemes,
      ∀ l ∈ line, l.isLineEnd = false := by
    rintro line (_ | ⟨_, hline⟩)
    · simp [originLexemes]
    · obtain ⟨d, -, rfl⟩ := List.mem_map.1 hline
      exact d.isLineEnd_lexemes
  obtain ⟨hlines, hfaults⟩ := lines_of_spells hends (spells_source hword h)
  obtain ⟨line, lines, hcons, hline, hrest⟩ := List.map_eq_cons_iff.1 hlines
  rw [hcons] at hfaults
  have hread : List.Forall₂ (Line.Holds cpu) (line :: lines)
      (.setPc (.constant v) :: ds.map Decoded.readItem) := by
    refine .cons ⟨hfaults line List.mem_cons_self, fun charmap count => ?_⟩
      (forall₂_lines h hrest fun line hline => hfaults line (List.mem_cons_of_mem _ hline))
    exact ⟨takeLabels_of_lexemes hline (by simp) (by simp), readPhrase_org hv hline⟩
  rw [← hcons] at hread
  exact read_items (hread.imp fun _ _ hline => hline.becomes)

end Source

end Assembler6502
