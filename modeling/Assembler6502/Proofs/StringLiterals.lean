import Assembler6502.Proofs.FileParts

/-!
# String literals

A line with one string literal stores the bytes of its text. Between the quotes a quote or a
backslash stands behind a backslash, so scanning gives back the text as it was. No character map is
given, so every byte of the text stands for itself.

## Main definitions

* `Source.literalLexemes`, `Source.literalLine`: the tokens of the line, and the line itself

## Main results

* `Source.readPhrase_string`: the values of a line with a string literal
* `Source.read_literalLine`: the line is read as the bytes of the text
* `Assembly.string_literals_survive`: and these bytes are written
-/

namespace Assembler6502

/-! ## Bytes -/

theorem Charmap.translate_identity (b : UInt8) : identity.translate b = b := by
  have hget (i : Fin 256) : identity.entries.get i = UInt8.ofNat i := by
    show identity.entries[i.val] = _
    rw [identity, Vector.getElem_ofFn]
  rw [translate, hget]
  exact UInt8.ofNat_toNat

theorem Text.flatMap_utf8EncodeChar (text : String) :
    text.toList.flatMap String.utf8EncodeChar = text.toUTF8.data.toList := by
  have hbytes : text.toUTF8 = text.toList.utf8Encode := by
    rw [← String.toByteArray_ofList, String.ofList_toList]
    rfl
  rw [hbytes, List.utf8Encode, List.data_toByteArray]

namespace Source

theorem Setting.stringValues_identity (cpu : Cpu) (count : Nat) (text : List Char) :
    (Setting.mk cpu .identity count).stringValues true text =
      (text.flatMap String.utf8EncodeChar).map fun b => .constant (Int64.ofNat b.toNat) := by
  simp only [stringValues, Charmap.translate_identity, if_true]

/-! ## Reading the line -/

/-- The tokens of a line with one string literal. -/
def literalLexemes (text : List Char) : List Lexeme :=
  [.mark .dot, .identifier "byte", .string text]

/-- A line with one string literal, behind so many blanks. -/
def literalLine (blanks : Nat) (text : List Char) : List Char :=
  ".byte".toList ++ List.replicate blanks ' ' ++ Text.quoted text

variable {g : Setting} {ts : List Token} {text rest : List Char} {last : Lexeme}

theorem spells_blanks {ls : List Lexeme} (h : Token.Spells ls rest) (blanks : Nat) :
    Token.Spells ls (List.replicate blanks ' ' ++ rest) := by
  induction blanks with
  | zero => exact h
  | succ blanks ih => exact ih.blank

theorem spells_literalLine {ls : List Lexeme} (htext : '\n' ∉ text) (blanks : Nat)
    (h : Token.Spells ls rest) :
    Token.Spells (literalLexemes text ++ ls) (literalLine blanks text ++ rest) := by
  have hname : Cursor.classify "byte".toList = .identifier "byte" := by decide
  have hstring := spells_blanks (h.string htext) blanks
  have hend : Cursor.EndsWord (List.replicate blanks ' ' ++ (Text.quoted text ++ rest)) = true := by
    cases blanks <;> rfl
  have hword := hstring.word (w := "byte".toList) (by decide) hend
  rw [hname] at hword
  have hline : literalLine blanks text ++ rest =
      ".byte".toList ++ (List.replicate blanks ' ' ++ (Text.quoted text ++ rest)) :=
    (List.append_assoc _ _ _).trans (List.append_assoc _ _ _)
  rw [hline]
  exact hword.mark .dot

/-- **A line with one string literal** is read as the values of the string. -/
theorem readPhrase_string (hlast : last.isLineEnd = true)
    (hts : ts.map (·.lexeme) = literalLexemes text ++ [last]) :
    readPhrase g ts = .ok (.item (.data .byte .little (g.stringValues true text))) := by
  obtain ⟨ps, hlength, rfl⟩ := Token.exists_positions hts
  match ps, hlength with
  | [_, _, p, q], _ =>
    cases last with
    | endOfLine | endOfFile => rfl
    | _ => cases hlast

/-- With or without an end of the line, the tokens of the line are those of the literal. -/
theorem lines_literalLine {ending : List Char} (htext : '\n' ∉ text) (blanks : Nat)
    (hending : ending = [] ∨ ending = ['\n']) :
    ∃ tokens last, lines (literalLine blanks text ++ ending) = [⟨tokens, []⟩] ∧
      tokens.map (·.lexeme) = literalLexemes text ++ [last] ∧ last.isLineEnd = true := by
  have hline : ∀ l ∈ literalLexemes text, l.isLineEnd = false := by
    simp [literalLexemes, Lexeme.isLineEnd]
  obtain rfl | rfl := hending
  · have hspells := spells_literalLine htext blanks .nil
    rw [List.append_nil] at hspells
    obtain ⟨tokens, hlines, hlexemes⟩ := lines_of_spells_line hline (List.cons_ne_nil _ _) hspells
    exact ⟨tokens, .endOfFile, hlines, hlexemes, rfl⟩
  · have hspells := spells_literalLine htext blanks (.newline .nil)
    have hjoined : Token.Spells (joined [literalLexemes text])
        (literalLine blanks text ++ ['\n']) := by
      simpa [joined] using hspells
    obtain ⟨hlines, hfaults⟩ := lines_of_spells (List.forall_mem_singleton.mpr hline) hjoined
    obtain ⟨⟨tokens, faults⟩, hone, hlexemes⟩ := List.map_eq_singleton_iff.mp hlines
    obtain rfl : faults = [] := hfaults _ (hone ▸ List.mem_cons_self)
    exact ⟨tokens, .endOfLine, hone, hlexemes, rfl⟩

/-- **The line is read as the bytes of the text**, without a fault. -/
theorem read_literalLine (cpu : Cpu) (fs : FileSystem) (stdin : Except FileError (List UInt8))
    (file directory : String) {ending : List Char} (htext : '\n' ∉ text) (blanks : Nat)
    (hending : ending = [] ∨ ending = ['\n']) :
    (read cpu fs stdin [.text file (literalLine blanks text ++ ending) directory]).diagnostics =
        {} ∧
      (read cpu fs stdin
        [.text file (literalLine blanks text ++ ending) directory]).program.leaves.map (·.2.item) =
          [.data .byte .little ((text.flatMap String.utf8EncodeChar).map fun b =>
            .constant (Int64.ofNat b.toNat))] := by
  obtain ⟨tokens, last, hlines, hlexemes, hlast⟩ := lines_literalLine htext blanks hending
  -- The reading has no character map yet, so the bytes stand for themselves.
  have hphrase : readPhrase ⟨cpu, .identity, 0⟩ tokens = .ok (.item (.data .byte .little
      ((text.flatMap String.utf8EncodeChar).map fun b => .constant (Int64.ofNat b.toNat)))) := by
    rw [readPhrase_string hlast hlexemes, Setting.stringValues_identity]
  obtain ⟨location, hread⟩ := Reading.readStatements_item fs (Reading.load fs) file directory
    (r := { cpu, input := stdin }) (takeLabels_of_lexemes hlexemes (by simp) (by simp)) hphrase
  simp only [read, readAll, Input.read, Reading.readText_eq, hlines, Reading.readLines, hread,
    Reading.reportFaults, List.foldl_nil]
  exact ⟨rfl, rfl⟩

end Source

namespace Assembly

/-- **String literals survive**: the bytes of a text without an end of a line are written as they
are, whichever characters it has, and nothing is reported. The line may end with the file. -/
theorem string_literals_survive (options : Options) (fs : FileSystem) (name text : String)
    (blanks : Nat) (ending : List Char) (htext : '\n' ∉ text.toList)
    (hending : ending = [] ∨ ending = ['\n']) :
    let assembly := ofText options fs name (Source.literalLine blanks text.toList ++ ending)
    assembly.diagnostics = {} ∧ assembly.image.bytes = text.toUTF8.data := by
  obtain ⟨hclean, hitems⟩ :=
    Source.read_literalLine options.cpu fs (.ok []) name "" htext blanks hending
  intro assembly
  simp only [assembly, ofText, ofSources_eq, hclean]
  obtain ⟨hdiagnostics, hbytes⟩ := @ofProgram_bytes options _ _ hitems
  refine ⟨hdiagnostics, Array.toList_inj.mp ?_⟩
  rw [hbytes, Text.flatMap_utf8EncodeChar]

/-- A text with quotes, a backslash, the mark of a comment and characters of several bytes. -/
def awkwardText : String := "a\"b\\n;\t'ß€\""

theorem string_literals_survive_awkwardText :
    let assembly := ofText {} .empty "main" ".byte \"a\\\"b\\\\n;\t'ß€\\\"\"".toList
    assembly.diagnostics = {} ∧ assembly.image.bytes =
      #[0x61, 0x22, 0x62, 0x5C, 0x6E, 0x3B, 0x09, 0x27, 0xC3, 0x9F, 0xE2, 0x82, 0xAC, 0x22] := by
  have hline : ".byte \"a\\\"b\\\\n;\t'ß€\\\"\"".toList =
      Source.literalLine 1 awkwardText.toList ++ [] := by decide +kernel
  have hbytes : awkwardText.toUTF8.data =
      #[0x61, 0x22, 0x62, 0x5C, 0x6E, 0x3B, 0x09, 0x27, 0xC3, 0x9F, 0xE2, 0x82, 0xAC, 0x22] := by
    decide +kernel
  rw [hline, ← hbytes]
  exact string_literals_survive {} .empty "main" awkwardText 1 [] (by decide +kernel) (.inl rfl)

end Assembly

end Assembler6502
