import Mathlib.Data.List.Forall2
import Assembler6502.Proofs.Printing

/-!
# Lines that include part of a file or define a constant

Two kinds of lines, as they are written: one includes part of a file, the other one gives a constant
its value. Their texts are spelled with their tokens, the tokens are read as what the lines say, and
each line becomes one statement, or has one fault if nothing can be made of it.

## Main definitions

* `Source.Directive`: the lines that include part of a file and that define a constant
* `Source.Directive.Legible`: the lines that can be read back
* `Source.Directive.Makes`: a line becomes a statement, wherever it stands

## Main results

* `Source.Directive.Legible.spells`: the text of a line is spelled with its tokens
* `Source.Directive.Legible.readPhrase`: the tokens of a line are read as what it says
* `Source.Directive.read_of_fault`: a part of a file with faulty bounds is reported
-/

namespace Assembler6502

/-! ## Texts and tokens -/

mutual

/-- The tokens of an expression stand on one line. -/
theorem Expr.isLineEnd_lexemes : ∀ (e : Expr), ∀ l ∈ e.lexemes, l.isLineEnd = false
  | .constant _ | .symbol _ | .programCounter => by simp [lexemes, Lexeme.isLineEnd]
  | .highByte e | .lowByte e => by simpa [lexemes] using isLineEnd_lexemes e
  | .chain first rest => by
    have hfirst := isLineEnd_lexemes first
    have hrest := isLineEnd_restLexemes rest
    intro l hl
    simp only [lexemes, List.mem_cons, List.mem_append, List.not_mem_nil, or_false] at hl
    obtain rfl | hl | hl | rfl := hl
    · rfl
    · exact hfirst l hl
    · exact hrest l hl
    · rfl

theorem Expr.isLineEnd_restLexemes : ∀ (rest : List (Operator × Expr)),
    ∀ l ∈ restLexemes rest, l.isLineEnd = false
  | [] => by simp [restLexemes]
  | (op, e) :: rest => by
    have he := isLineEnd_lexemes e
    have hrest := isLineEnd_restLexemes rest
    intro l hl
    simp only [restLexemes, List.mem_cons, List.mem_append] at hl
    obtain rfl | hl | hl := hl
    · rfl
    · exact he l hl
    · exact hrest l hl

end

namespace Source

/-- The lines that include part of a file and that define a constant. -/
inductive Directive where
  | part (file : String) (offset : Expr) (length : Option Expr)
  | constant (name : String) (value : Expr)

namespace Directive

/-- The length of a part, as it is written. -/
def lengthText : Option Expr → List Char
  | none => []
  | some e => ',' :: ' ' :: e.text.toList

/-- The line as it is written. -/
def text : Directive → List Char
  | part file offset length =>
    '.' :: ("incbin".toList ++ ' ' :: (Text.quoted file.toList ++
      ',' :: ' ' :: (offset.text.toList ++ (lengthText length ++ ['\n']))))
  | constant name value =>
    '.' :: ("alias".toList ++ ' ' :: (name.toList ++ ' ' :: (value.text.toList ++ ['\n'])))

/-- The tokens of the length of a part. -/
def lengthLexemes : Option Expr → List Lexeme
  | none => []
  | some e => .mark .comma :: e.lexemes

/-- The tokens of the line. -/
def lexemes : Directive → List Lexeme
  | part file offset length =>
    .mark .dot :: .identifier "incbin" :: .string file.toList :: .mark .comma ::
      (offset.lexemes ++ lengthLexemes length)
  | constant name value =>
    .mark .dot :: .identifier "alias" :: .identifier name :: value.lexemes

/-- What the line says. -/
def phrase : Directive → Phrase
  | part file offset length => .incbin file offset length
  | constant name value => .item (.label (.global name) value)

/-- The line can be read back. -/
inductive Legible : Directive → Prop
  | part {file : String} {offset : Expr} {length : Option Expr} (hfile : '\n' ∉ file.toList)
      (ho : offset.Legible) (hl : ∀ e ∈ length, e.Legible) : Legible (part file offset length)
  | constant {name : String} {value : Expr} (hname : (Symbol.global name).Legible)
      (hv : value.Legible) : Legible (constant name value)

variable {d : Directive}

theorem isLineEnd_lexemes (d : Directive) : ∀ l ∈ d.lexemes, l.isLineEnd = false := by
  cases d with
  | constant name value =>
    have hvalue := value.isLineEnd_lexemes
    simpa [lexemes] using hvalue
  | part file offset length =>
    have hoffset := offset.isLineEnd_lexemes
    have hlength : ∀ l ∈ lengthLexemes length, l.isLineEnd = false := by
      cases length with
      | none => simp [lengthLexemes]
      | some e => simpa [lengthLexemes] using e.isLineEnd_lexemes
    intro l hl
    simp only [lexemes, List.mem_cons, List.mem_append] at hl
    obtain rfl | rfl | rfl | rfl | hl | hl := hl
    · rfl
    · rfl
    · rfl
    · rfl
    · exact hoffset l hl
    · exact hlength l hl

open Token (Spells)

/-- **The text of a directive** is spelled with its tokens. -/
theorem Legible.spells (hd : d.Legible) {ls : List Lexeme} {cs : List Char} (h : Spells ls cs) :
    Spells (d.lexemes ++ .endOfLine :: ls) (d.text ++ cs) := by
  have hline : Spells (.endOfLine :: ls) ('\n' :: cs) := .newline h
  cases hd with
  | @constant name value hname hv =>
    have halias : Cursor.classify "alias".toList = .identifier "alias" := by decide
    have hvalue := hv.spells rfl hline
    have hword := Spells.word hname.name.isWord rfl hvalue.blank
    rw [hname.name.classify, String.ofList_toList] at hword
    have hdirective := Spells.word (w := "alias".toList) (by decide) rfl hword.blank
    rw [halias] at hdirective
    have hdot := hdirective.mark .dot
    simpa [lexemes, text, Symbol.text, Punctuation.toChar] using hdot
  | @part file offset length hfile ho hl =>
    have hincbin : Cursor.classify "incbin".toList = .identifier "incbin" := by decide
    -- The line is put together from its end: the length, if there is one, stands last.
    have hbounds : Spells (offset.lexemes ++ (lengthLexemes length ++ .endOfLine :: ls))
        (offset.text.toList ++ (lengthText length ++ '\n' :: cs)) := by
      cases length with
      | none => exact ho.spells rfl hline
      | some e => exact ho.spells rfl (.mark .comma (.blank ((hl e rfl).spells rfl hline)))
    have hname := Spells.string hfile (.mark .comma hbounds.blank)
    have hdirective := Spells.word (w := "incbin".toList) (by decide) rfl hname.blank
    rw [hincbin] at hdirective
    have hdot := hdirective.mark .dot
    simpa [lexemes, text, Punctuation.toChar] using hdot

theorem spells_directives {ds : List Directive} (h : ∀ d ∈ ds, d.Legible) :
    Spells (joined (ds.map lexemes)) (ds.flatMap text) := by
  induction ds with
  | nil => exact .nil
  | cons d ds ih =>
    obtain ⟨hd, hds⟩ := List.forall_mem_cons.mp h
    have hline := hd.spells (ih hds)
    simpa [joined] using hline

theorem takeLabels_lexemes {ts : List Token} (count : Nat)
    (hts : ts.map (·.lexeme) = d.lexemes ++ [.endOfLine]) :
    takeLabels count ts = ([], count, ts) := by
  cases d with
  | part | constant => exact takeLabels_of_lexemes hts (by simp) (by simp)

/-- **The tokens of a directive** are read as what it says. -/
theorem Legible.readPhrase {g : Setting} {ts : List Token} (hd : d.Legible)
    (hts : ts.map (·.lexeme) = d.lexemes ++ [.endOfLine]) :
    Source.readPhrase g ts = .ok d.phrase := by
  cases hd with
  | @constant name value hname hv =>
    -- Three tokens come first, and the value takes the others up to the end of the line.
    obtain ⟨p, _, rfl, htail⟩ := Token.of_map_cons hts
    obtain ⟨q, _, rfl, hbehind⟩ := Token.of_map_cons htail
    obtain ⟨r, _, rfl, hlast⟩ := Token.of_map_cons hbehind
    obtain ⟨us, vs, rfl, hus, hvs⟩ := List.map_eq_append_iff.mp hlast
    obtain ⟨e, rfl⟩ := Token.of_map_singleton hvs
    have hread : g.readExpr (us ++ [⟨.endOfLine, e⟩]) = .ok (value, [⟨.endOfLine, e⟩]) :=
      hv.read g.count hus ⟨rfl, rfl, rfl⟩
    have hsymbol : Symbol.ofText name = .global name := hname.ofText
    simp only [Source.readPhrase, Token.first, readIdentifier, List.tail_cons, bind, Except.bind,
      Setting.readDirective, Setting.readSingle, hread, hsymbol]
    rfl
  | @part file offset length hfile ho hl =>
    obtain ⟨p, _, rfl, htail⟩ := Token.of_map_cons hts
    obtain ⟨q, _, rfl, hbehind⟩ := Token.of_map_cons htail
    obtain ⟨r, _, rfl, hcomma⟩ := Token.of_map_cons hbehind
    obtain ⟨s, _, rfl, hbounds⟩ := Token.of_map_cons hcomma
    obtain ⟨us, vs, rfl, hus, hvs⟩ :=
      List.map_eq_append_iff.mp (hbounds.trans (List.append_assoc _ _ _))
    have hfirst : Source.readPhrase g (⟨.mark .dot, p⟩ :: ⟨.identifier "incbin", q⟩ ::
        ⟨.string file.toList, r⟩ :: ⟨.mark .comma, s⟩ :: (us ++ vs)) =
        g.readIncbin (⟨.string file.toList, r⟩ :: ⟨.mark .comma, s⟩ :: (us ++ vs)) := rfl
    rw [hfirst]
    -- Without a length the line ends behind the offset; with one a comma comes first.
    cases length with
    | none =>
      obtain ⟨e, rfl⟩ := Token.of_map_singleton hvs
      have hread : g.readExpr (us ++ [⟨.endOfLine, e⟩]) = .ok (offset, [⟨.endOfLine, e⟩]) :=
        ho.read g.count hus ⟨rfl, rfl, rfl⟩
      simp only [Setting.readIncbin, readString, bind, Except.bind, String.ofList_toList, atComma,
        Token.first, List.tail_cons, hread]
      rfl
    | some length =>
      obtain ⟨t, _, rfl, hlength⟩ := Token.of_map_cons hvs
      obtain ⟨ws, xs, rfl, hws, hxs⟩ := List.map_eq_append_iff.mp hlength
      obtain ⟨e, rfl⟩ := Token.of_map_singleton hxs
      have hread : g.readExpr (us ++ ⟨.mark .comma, t⟩ :: (ws ++ [⟨.endOfLine, e⟩])) =
          .ok (offset, ⟨.mark .comma, t⟩ :: (ws ++ [⟨.endOfLine, e⟩])) :=
        ho.read g.count hus ⟨rfl, rfl, rfl⟩
      have hlast : g.readExpr (ws ++ [⟨.endOfLine, e⟩]) = .ok (length, [⟨.endOfLine, e⟩]) :=
        (hl length rfl).read g.count hws ⟨rfl, rfl, rfl⟩
      simp only [Setting.readIncbin, readString, bind, Except.bind, String.ofList_toList, atComma,
        Token.first, List.tail_cons, hread, hlast]
      rfl

/-! ## What is read -/

/-- The directive becomes a statement with an item, wherever it stands. -/
def Makes (fs : FileSystem) (directory : String) (d : Directive) (item : Item) : Prop :=
  ∀ (load : Reading.Loader) (location : Location) (r : Reading),
    r.perform fs load directory location d.phrase = .ok (r.make location [item])

/-- A part of a file becomes what its bounds make of the bytes of the file. -/
theorem perform_part {fs : FileSystem} {directory file : String} {bytes : List UInt8}
    (hfile : fs.read (Path.join directory file) = .ok bytes) (offset : Expr) (length : Option Expr)
    (load : Reading.Loader) (location : Location) (r : Reading) :
    r.perform fs load directory location (part file offset length).phrase =
      (Reading.binaryItem bytes offset length).map fun item => r.make location [item] := by
  simp only [phrase, Reading.perform, hfile]
  cases Reading.binaryItem bytes offset length <;> rfl

variable {fs : FileSystem} {directory : String}

/-- **The lines of directives** have no faults, and their tokens are those of the directives. -/
theorem lexemes_lines {ds : List Directive} (h : ∀ d ∈ ds, d.Legible) :
    List.Forall₂ (fun line d => line.faults = [] ∧
      line.tokens.map (·.lexeme) = d.lexemes ++ [.endOfLine]) (lines (ds.flatMap text)) ds := by
  have hends : ∀ line ∈ ds.map lexemes, ∀ l ∈ line, l.isLineEnd = false := by
    intro line hline
    obtain ⟨d, -, rfl⟩ := List.mem_map.mp hline
    exact d.isLineEnd_lexemes
  obtain ⟨hlines, hfaults⟩ := lines_of_spells hends (spells_directives h)
  rw [List.map_map, ← List.forall₂_eq_eq_eq, List.forall₂_map_left_iff,
    List.forall₂_map_right_iff] at hlines
  rw [List.forall₂_iff_zip] at hlines ⊢
  refine ⟨hlines.1, fun {line d} hzip => ⟨hfaults line (List.of_mem_zip hzip).1, hlines.2 hzip⟩⟩

/-- **Directives are read** as the statements that they become. -/
theorem read_of_makes (cpu : Cpu) (stdin : Except FileError (List UInt8)) (file : String)
    {ds : List Directive} {items : List Item} (h : ∀ d ∈ ds, d.Legible)
    (hitems : List.Forall₂ (Makes fs directory) ds items) :
    (read cpu fs stdin [.text file (ds.flatMap text) directory]).diagnostics = {} ∧
      (read cpu fs stdin [.text file (ds.flatMap text) directory]).program.leaves.map
        (·.2.item) = items := by
  refine read_items ?_
  have hlines := lexemes_lines h
  generalize lines (ds.flatMap text) = ls at hlines
  -- A directive is one line, so lines and items are matched one by one.
  induction hlines generalizing items with
  | nil =>
    cases hitems
    exact .nil
  | @cons line d ls ds hline hlines ih =>
    obtain ⟨hd, hds⟩ := List.forall_mem_cons.mp h
    cases hitems with
    | @cons _ item _ items hitem hitems =>
      refine .cons ⟨hline.1, fun r hcpu => ?_⟩ (ih hds hitems)
      obtain ⟨location, hread⟩ := Reading.readStatements_phrase fs (Reading.load fs) file directory
        (r := r) (takeLabels_lexemes _ hline.2) (hd.readPhrase hline.2)
      rw [hitem] at hread
      exact ⟨location, hread⟩

/-- A part of a file with faulty bounds is reported, and nothing else is. -/
theorem read_of_fault (cpu : Cpu) (stdin : Except FileError (List UInt8)) (file : String)
    {name : String} {offset : Expr} {length : Option Expr} {bytes : List UInt8} {err : ParseError}
    (h : (part name offset length).Legible)
    (hfile : fs.read (Path.join directory name) = .ok bytes)
    (herr : Reading.binaryItem bytes offset length = .error err) :
    ∃ location, (read cpu fs stdin [.text file (part name offset length).text
      directory]).diagnostics = ⟨[⟨location, .parse err⟩], []⟩ := by
  have hlines := lexemes_lines (List.forall_mem_singleton.mpr h)
  rw [List.flatMap_singleton] at hlines
  cases hline : lines (part name offset length).text with
  | nil =>
    rw [hline] at hlines
    cases hlines
  | cons line ls =>
    rw [hline] at hlines
    -- The text is one line, and its tokens have no faults of their own.
    obtain _ | ⟨⟨hfaults, htokens⟩, hrest⟩ := hlines
    cases hrest
    obtain ⟨location, hread⟩ := Reading.readStatements_phrase fs (Reading.load fs) file directory
      (r := { cpu, input := stdin }) (takeLabels_lexemes _ htokens) (h.readPhrase htokens)
    rw [perform_part hfile, herr] at hread
    refine ⟨location, ?_⟩
    simp only [read, readAll, Input.read, Reading.readText_eq, hline, Reading.readLines, hread,
      Reading.reportFaults, hfaults, List.foldl_nil]
    rfl

end Directive
end Source

end Assembler6502
