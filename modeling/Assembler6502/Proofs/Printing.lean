import Assembler6502.Proofs.LowerCase
import Assembler6502.Proofs.Origin

/-!
# Printing and reading expressions

The written form of an expression puts every chain of operations into brackets, so it needs no rules
of precedence, and it never starts with a sign, so no sign of it is taken for an anonymous label. An
expression that was read, and that mentions no anonymous label, is therefore read back from its
written form: its words are scanned as what they were, the brackets keep every chain apart from the
chains inside and around it, and within a chain all operators bind equally tight.

## Main definitions

* `Expr.symbols`: the labels that an expression mentions
* `Expr.Legible`: the expressions that are read back
* `Expr.lexemes`: the tokens of the written form

## Main results

* `Expr.found_legible`: what is read is legible, unless it mentions an anonymous label
* `Expr.Legible.spells`: the written form is spelled with its tokens
* `Expr.Legible.readAtom`: the tokens of an operand are read back
* `Expr.read_text`: printing and reading are inverse
-/

namespace Assembler6502

theorem Token.of_map_singleton {ts : List Token} {l : Lexeme} (h : ts.map (·.lexeme) = [l]) :
    ∃ p, ts = [⟨l, p⟩] := by
  obtain ⟨p, rest, rfl, hrest⟩ := of_map_cons h
  rw [List.map_eq_nil_iff.mp hrest]
  exact ⟨p, rfl⟩

/-! ## Operators -/

/-- The mark of an operator. -/
def Operator.mark : Operator → Punctuation
  | multiply => .star
  | divide => .slash
  | add => .plus
  | subtract => .minus
  | and => .ampersand
  | or => .pipe
  | xor => .caret

namespace Operator

theorem toChar_mark (op : Operator) : op.mark.toChar = op.toChar := by
  cases op <;> rfl

theorem level_mark (op : Operator) (p : Precedence) :
    p.level op.mark = if op.precedence = p then some op else none := by
  cases op <;> cases p <;> rfl

end Operator

/-! ## Legible expressions -/

/-- The symbol is read back from its written form. -/
structure Symbol.Legible (s : Symbol) : Prop where
  ofText : Symbol.ofText s.text = s
  name : Text.IsName s.text.toList

namespace Symbol

theorem text_ofText (name : String) : (ofText name).text = name := by
  unfold ofText
  split
  · rename_i rest heq
    rw [text, ← String.toList_inj, String.toList_append, String.toList_ofList, heq]
    simp
  · rfl

theorem legible_ofText {name : String} (h : Text.IsName name.toList) : (ofText name).Legible := by
  refine ⟨?_, ?_⟩
  · rw [text_ofText]
  · rw [text_ofText]
    exact h

end Symbol

namespace Expr

mutual

/-- The labels that an expression mentions. -/
def symbols : Expr → List Symbol
  | constant _ | programCounter => []
  | symbol s => [s]
  | highByte e => symbols e
  | lowByte e => symbols e
  | chain first rest => symbols first ++ restSymbols rest

/-- The labels that the operands of a list of operations mention. -/
def restSymbols : List (Operator × Expr) → List Symbol
  | [] => []
  | (_, e) :: rest => symbols e ++ restSymbols rest

end

mutual

/-- An expression that is read back from its written form: its numbers are not negative, its labels
have names, and the operators of one chain bind equally tight. -/
def Legible : Expr → Prop
  | constant v => 0 ≤ v
  | symbol s => s.Legible
  | programCounter => True
  | highByte e => Legible e
  | lowByte e => Legible e
  | chain first rest => Legible first ∧ rest ≠ [] ∧ ∃ p, AllLegible p rest

/-- Operations that are read back, whose operators bind equally tight. -/
def AllLegible (p : Precedence) : List (Operator × Expr) → Prop
  | [] => True
  | (op, e) :: rest => op.precedence = p ∧ Legible e ∧ AllLegible p rest

end

theorem allLegible_of_forall {p : Precedence} {rest : List (Operator × Expr)}
    (h : ∀ x ∈ rest, x.1.precedence = p ∧ x.2.Legible) : AllLegible p rest := by
  induction rest with
  | nil =>
    rw [AllLegible]
    trivial
  | cons x rest ih =>
    obtain ⟨⟨hop, he⟩, hrest⟩ := List.forall_mem_cons.mp h
    rw [AllLegible]
    exact ⟨hop, he, ih hrest⟩

theorem mem_restSymbols {rest : List (Operator × Expr)} {x : Operator × Expr} (hx : x ∈ rest)
    {s : Symbol} (hs : s ∈ x.2.symbols) : s ∈ restSymbols rest := by
  induction rest with
  | nil => cases hx
  | cons y rest ih =>
    rw [restSymbols]
    rcases List.mem_cons.mp hx with rfl | hx
    · exact List.mem_append_left _ hs
    · exact List.mem_append_right _ (ih hx)

/-- Numerals and characters denote no negative numbers. -/
theorem nonneg_of_value {l : Lexeme} {v : Value} (h : l.value = .ok v) : 0 ≤ v := by
  have hmax : Int64.maxValue.toInt.toNat = 2 ^ 63 - 1 := by decide
  have hnat {n : Nat} (hn : n ≤ Int64.maxValue.toInt.toNat) : (0 : Value) ≤ Int64.ofNat n := by
    rw [Int64.le_iff_toInt_le, Int64.toInt_ofNat_of_lt (by omega)]
    exact Int.natCast_nonneg n
  have hnumeral {base : Nat} {kind : String} {digits : List Char}
      (h : Lexeme.numeralValue base kind digits = .ok v) : 0 ≤ v := by
    unfold Lexeme.numeralValue at h
    split at h
    · rename_i w hw
      cases h
      obtain ⟨n, -, hn⟩ := Option.bind_eq_some_iff.mp hw
      unfold Value.ofNat? at hn
      split at hn
      · rename_i hle
        cases hn
        exact hnat hle
      · cases hn
    · cases h
  -- Numerals in all bases come first, then characters, then lexemes without a value.
  unfold Lexeme.value at h
  split at h
  · exact hnumeral h
  · exact hnumeral h
  · exact hnumeral h
  · split at h
    · exact hnumeral h
    · cases h
  · rename_i c
    cases h
    have hc : c.toNat < 2 ^ 32 := c.val.toNat_lt
    exact hnat (by omega)
  · cases h
  · cases h

/-- **What is read is legible**, unless it mentions an anonymous label. -/
theorem found_legible : Found Token.Named
    fun e => (∀ index, anonymousLabel index ∉ e.symbols) → e.Legible where
  name t name ht hname _ := by
    rw [Legible]
    exact Symbol.legible_ofText (ht name hname)
  anonymous index h := by
    rw [symbols] at h
    exact absurd (List.mem_singleton_self _) (h index)
  programCounter _ := by
    rw [Legible]
    trivial
  number l v hv _ := by
    rw [Legible]
    exact nonneg_of_value hv
  highByte e he h := by
    rw [symbols] at h
    rw [Legible]
    exact he h
  lowByte e he h := by
    rw [symbols] at h
    rw [Legible]
    exact he h
  chain p first rest hfirst hne hrest h := by
    rw [symbols] at h
    rw [Legible]
    refine ⟨hfirst fun index hmem => h index (List.mem_append_left _ hmem), hne, p, ?_⟩
    refine allLegible_of_forall fun x hx => ⟨(hrest x hx).1, (hrest x hx).2 fun index hmem => ?_⟩
    exact h index (List.mem_append_right _ (mem_restSymbols hx hmem))

/-! ## The written form -/

mutual

/-- The tokens of the written form. -/
def lexemes : Expr → List Lexeme
  | constant v => [.decimal v.text.toList]
  | symbol s => [.identifier s.text]
  | programCounter => [.mark .caret]
  | highByte e => .mark .greaterThan :: lexemes e
  | lowByte e => .mark .lessThan :: lexemes e
  | chain first rest =>
    .mark .bracketLeft :: (lexemes first ++ (restLexemes rest ++ [.mark .bracketRight]))

/-- The tokens of the written form of the operations of a chain. -/
def restLexemes : List (Operator × Expr) → List Lexeme
  | [] => []
  | (op, e) :: rest => .mark op.mark :: (lexemes e ++ restLexemes rest)

end

theorem text_of_nonneg {v : Value} (hv : 0 ≤ v) :
    v.text = Text.decimal v.toInt.toNat ∧ v.toInt.toNat ≤ Int64.maxValue.toInt.toNat ∧
      Int64.ofNat v.toInt.toNat = v := by
  have hint : (v.toInt.toNat : Int) = v.toInt :=
    Int.toNat_of_nonneg (Int64.le_iff_toInt_le.1 hv)
  refine ⟨by rw [Value.text, hint], ?_, ?_⟩
  · exact Int.toNat_le_toNat (Int64.le_iff_toInt_le.1 (Int64.le_maxValue v))
  · rw [← Int64.ofInt_eq_ofNat, hint, Int64.ofInt_toInt]

theorem toList_restText_cons (op : Operator) (e : Expr) (rest : List (Operator × Expr)) :
    (restText ((op, e) :: rest)).toList =
      ' ' :: op.mark.toChar :: ' ' :: (e.text.toList ++ (restText rest).toList) := by
  simp [restText, op.toChar_mark]

/-- Words end before the operations of a chain. -/
theorem endsWord_restText (rest : List (Operator × Expr)) {cs : List Char}
    (hcs : Cursor.EndsWord cs = true) :
    Cursor.EndsWord ((restText rest).toList ++ cs) = true := by
  cases rest with
  | nil =>
    rw [restText]
    exact hcs
  | cons x rest =>
    rw [toList_restText_cons]
    rfl

open Token (Spells)

mutual

/-- **The written form of a legible expression** is spelled with its tokens. -/
theorem Legible.spells : ∀ {e : Expr}, e.Legible → ∀ {ls : List Lexeme} {cs : List Char},
    Cursor.EndsWord cs = true → Spells ls cs → Spells (e.lexemes ++ ls) (e.text.toList ++ cs)
  | constant v, hv, ls, cs, hend, h => by
    rw [Legible] at hv
    rw [lexemes, text, (text_of_nonneg hv).1, ← Text.classify_decimal]
    exact .word (Text.isWord_decimal _) hend h
  | symbol s, hs, ls, cs, hend, h => by
    rw [Legible] at hs
    have hword := Spells.word hs.name.isWord hend h
    rw [hs.name.classify, String.ofList_toList] at hword
    rw [lexemes, text]
    exact hword
  | programCounter, _, ls, cs, _, h => by
    rw [lexemes, text]
    exact .mark .caret h
  | highByte e, he, ls, cs, hend, h => by
    rw [Legible] at he
    rw [lexemes, text, String.toList_append]
    exact .mark .greaterThan (he.spells hend h)
  | lowByte e, he, ls, cs, hend, h => by
    rw [Legible] at he
    rw [lexemes, text, String.toList_append]
    exact .mark .lessThan (he.spells hend h)
  | chain first rest, hchain, ls, cs, _, h => by
    rw [Legible] at hchain
    obtain ⟨hfirst, -, p, hrest⟩ := hchain
    -- The operations end before the closing bracket, and the first operand before the operations.
    have hoperations := hrest.spells rfl (.mark .bracketRight h)
    have hinside := hfirst.spells (endsWord_restText rest rfl) hoperations
    have htext : (chain first rest).text.toList ++ cs =
        '[' :: (first.text.toList ++ ((restText rest).toList ++ (']' :: cs))) := by
      simp [text]
    rw [htext, lexemes, List.cons_append, List.append_assoc, List.append_assoc]
    exact .mark .bracketLeft hinside

theorem AllLegible.spells {p : Precedence} : ∀ {rest : List (Operator × Expr)},
    AllLegible p rest → ∀ {ls : List Lexeme} {cs : List Char}, Cursor.EndsWord cs = true →
      Spells ls cs → Spells (restLexemes rest ++ ls) ((restText rest).toList ++ cs)
  | [], _, ls, cs, _, h => by
    rw [restLexemes, restText]
    exact h
  | (op, e) :: rest, hall, ls, cs, hend, h => by
    rw [AllLegible] at hall
    obtain ⟨-, he, hrest⟩ := hall
    have hoperand := he.spells (endsWord_restText rest hend) (hrest.spells hend h)
    rw [restLexemes, toList_restText_cons, List.cons_append, List.append_assoc]
    simp only [List.cons_append, List.append_assoc]
    exact .blank (.mark op.mark (.blank hoperand))

end

/-! ## Reading chains -/

section Chains

variable {atom : Reader Expr} {p : Precedence} {more : List Token}

/-- A reader of the operands at a level: what binds tighter is read first. -/
def readOperand : Precedence → Reader Expr → Reader Expr
  | .multiplicative, atom => atom
  | .additive, atom => readLevel multiplicative atom
  | .bitwise, atom => readLevel additive (readLevel multiplicative atom)

/-- An operand at a level ends here: there is an operator of the level, or none at all. -/
def EndsOperand (p : Precedence) (more : List Token) : Prop :=
  Ends more ∨ ∃ (op : Operator) (q : Position) (rest : List Token), op.precedence = p ∧
    more = ⟨.mark op.mark, q⟩ :: rest

theorem EndsOperand.leadingOperator? (h : EndsOperand p more) {q : Precedence} (hq : p ≠ q) :
    leadingOperator? q.level more = none := by
  rcases h with ⟨hbitwise, hadditive, hmultiplicative⟩ | ⟨op, position, rest, rfl, rfl⟩
  · cases q with
    | bitwise => exact hbitwise
    | additive => exact hadditive
    | multiplicative => exact hmultiplicative
  · rw [Expr.leadingOperator?, op.level_mark, if_neg hq]

/-- An operand is read at its level like an operand that stands alone. -/
theorem readOperand_of_atom {ts : List Token} {e : Expr} (h : atom ts = .ok (e, more))
    (hmore : EndsOperand p more) : readOperand p atom ts = .ok (e, more) := by
  cases p with
  | multiplicative => exact h
  | additive =>
    exact readLevel_of_ends h (hmore.leadingOperator? (q := .multiplicative) (by decide))
  | bitwise =>
    refine readLevel_of_ends (readLevel_of_ends h ?_) ?_
    · exact hmore.leadingOperator? (q := .multiplicative) (by decide)
    · exact hmore.leadingOperator? (q := .additive) (by decide)

theorem readLevels_of_level {ts : List Token} {e : Expr}
    (h : readLevel p.level (readOperand p atom) ts = .ok (e, more)) (hmore : Ends more) :
    readLevels atom ts = .ok (e, more) := by
  cases p with
  | multiplicative => exact readLevel_of_ends (readLevel_of_ends h hmore.2.1) hmore.1
  | additive => exact readLevel_of_ends h hmore.1
  | bitwise => exact h

/-- Some tokens are operators with operands that the reader of operands reads. -/
inductive Operations (atom : Reader Expr) (p : Precedence) :
    List (Operator × Expr) → List Token → Prop
  | nil : Operations atom p [] []
  | cons {op : Operator} {e : Expr} {rest : List (Operator × Expr)} (q : Position)
      {ts us : List Token} (hop : op.precedence = p)
      (hoperand : ∀ more, atom (ts ++ more) = .ok (e, more)) (hrest : Operations atom p rest us) :
      Operations atom p ((op, e) :: rest) (⟨.mark op.mark, q⟩ :: (ts ++ us))

theorem Operations.endsOperand {rest : List (Operator × Expr)} {us : List Token}
    (h : Operations atom p rest us) (hmore : Ends more) : EndsOperand p (us ++ more) := by
  cases h with
  | nil => exact .inl hmore
  | cons q hop _ _ => exact .inr ⟨_, q, _, hop, rfl⟩

/-- Operations of one level are read, up to where no operator follows. -/
theorem Operations.readOperations {rest : List (Operator × Expr)} {us : List Token}
    (h : Operations atom p rest us) (hmore : Ends more) {fuel : Nat} (hfuel : us.length ≤ fuel) :
    Expr.readOperations p.level (readOperand p atom) fuel (us ++ more) = .ok (rest, more) := by
  induction h generalizing fuel with
  | nil =>
    have hstop : Expr.leadingOperator? p.level more = none := by
      cases p with
      | bitwise => exact hmore.1
      | additive => exact hmore.2.1
      | multiplicative => exact hmore.2.2
    cases fuel with
    | zero => rfl
    | succ fuel => simp [Expr.readOperations, hstop]
  | @cons op e rest q ts us hop hoperand hrest ih =>
    obtain ⟨fuel, rfl⟩ : ∃ n, fuel = n + 1 := by
      cases fuel with
      | zero => cases hfuel
      | succ n => exact ⟨n, rfl⟩
    have hlead : Expr.leadingOperator? p.level (⟨.mark op.mark, q⟩ :: (ts ++ (us ++ more))) =
        some op := by
      rw [Expr.leadingOperator?, op.level_mark, if_pos hop]
    have hread : readOperand p atom (ts ++ (us ++ more)) = .ok (e, us ++ more) :=
      readOperand_of_atom (hoperand _) (hrest.endsOperand hmore)
    -- Every round takes at least its operator, so the fuel lasts.
    have hshort : us.length ≤ fuel := by
      simp only [List.length_cons, List.length_append] at hfuel
      omega
    have hrests := ih hshort
    rw [List.cons_append, List.append_assoc]
    simp only [Expr.readOperations, hlead, List.tail_cons, hread, bind, Except.bind, hrests, pure,
      Except.pure]

/-- **A chain of operations of one level** is read as a chain. -/
theorem readLevels_of_operations {first : Expr} {rest : List (Operator × Expr)}
    {ts us : List Token} (hfirst : ∀ more, atom (ts ++ more) = .ok (first, more))
    (hrest : Operations atom p rest us) (hne : rest ≠ []) (hmore : Ends more) :
    readLevels atom (ts ++ (us ++ more)) = .ok (chain first rest, more) := by
  have hoperand : readOperand p atom (ts ++ (us ++ more)) = .ok (first, us ++ more) :=
    readOperand_of_atom (hfirst _) (hrest.endsOperand hmore)
  have hoperations : readOperations p.level (readOperand p atom) (us ++ more).length
      (us ++ more) = .ok (rest, more) := hrest.readOperations hmore (by simp)
  have hchained : chained first rest = chain first rest := by simp [chained, hne]
  refine readLevels_of_level (p := p) ?_ hmore
  simp only [readLevel, hoperand, bind, Except.bind, hoperations, pure, Except.pure, hchained]

end Chains

/-! ## Reading back -/

theorem ends_bracketRight (q : Position) (more : List Token) :
    Ends (⟨.mark .bracketRight, q⟩ :: more) :=
  ⟨rfl, rfl, rfl⟩

mutual

/-- **The tokens of an operand** are read back, whatever follows. -/
theorem Legible.readAtom (count : Nat) : ∀ {e : Expr}, e.Legible → ∀ {depth : Nat}
    {ts : List Token}, ts.map (·.lexeme) = e.lexemes → ts.length ≤ depth → ∀ more : List Token,
      Expr.readAtom count depth (ts ++ more) = .ok (e, more)
  | constant v, hv, depth, ts, hts, hdepth, more => by
    rw [Legible] at hv
    obtain ⟨htext, hle, hback⟩ := text_of_nonneg hv
    rw [lexemes] at hts
    obtain ⟨q, rfl⟩ := Token.of_map_singleton hts
    obtain ⟨depth, rfl⟩ : ∃ n, depth = n + 1 := ⟨depth - 1, by simp at hdepth; omega⟩
    have hvalue : (Lexeme.decimal v.text.toList).value = .ok v := by
      rw [htext, ← Text.classify_decimal, Text.value_decimal hle, hback]
    exact readAtom_number hvalue
  | symbol s, hs, depth, ts, hts, hdepth, more => by
    rw [Legible] at hs
    rw [lexemes] at hts
    obtain ⟨q, rfl⟩ := Token.of_map_singleton hts
    obtain ⟨depth, rfl⟩ : ∃ n, depth = n + 1 := ⟨depth - 1, by simp at hdepth; omega⟩
    simp only [List.cons_append, List.nil_append, Expr.readAtom, hs.ofText]
  | programCounter, _, depth, ts, hts, hdepth, more => by
    rw [lexemes] at hts
    obtain ⟨q, rfl⟩ := Token.of_map_singleton hts
    obtain ⟨depth, rfl⟩ : ∃ n, depth = n + 1 := ⟨depth - 1, by simp at hdepth; omega⟩
    simp only [List.cons_append, List.nil_append, Expr.readAtom]
  | highByte e, he, depth, ts, hts, hdepth, more
  | lowByte e, he, depth, ts, hts, hdepth, more => by
    rw [Legible] at he
    rw [lexemes] at hts
    obtain ⟨q, rest, rfl, hrest⟩ := Token.of_map_cons hts
    obtain ⟨depth, rfl⟩ : ∃ n, depth = n + 1 := ⟨depth - 1, by simp at hdepth; omega⟩
    have hread := he.readAtom count hrest (Nat.le_of_succ_le_succ hdepth) more
    simp only [List.cons_append, Expr.readAtom, hread]
    rfl
  | chain first rest, hchain, depth, ts, hts, hdepth, more => by
    rw [Legible] at hchain
    obtain ⟨hfirst, hne, p, hrest⟩ := hchain
    rw [lexemes] at hts
    obtain ⟨q, tail, rfl, htail⟩ := Token.of_map_cons hts
    obtain ⟨depth, rfl⟩ : ∃ n, depth = n + 1 := ⟨depth - 1, by simp at hdepth; omega⟩
    obtain ⟨us, behind, rfl, hus, hbehind⟩ := List.map_eq_append_iff.mp htail
    obtain ⟨vs, last, rfl, hvs, hlast⟩ := List.map_eq_append_iff.mp hbehind
    obtain ⟨r, rfl⟩ := Token.of_map_singleton hlast
    simp only [List.length_cons, List.length_append] at hdepth
    -- Inside the brackets there is one bracket less to go down.
    have hoperand : ∀ more, Expr.readAtom count depth (us ++ more) = .ok (first, more) :=
      hfirst.readAtom count hus (by omega)
    have hoperations : Operations (Expr.readAtom count depth) p rest vs :=
      hrest.operations count hvs (by omega)
    have hread := readLevels_of_operations hoperand hoperations hne (ends_bracketRight r more)
    simp only [List.cons_append, List.append_assoc, List.nil_append, Expr.readAtom, hread, bind,
      Except.bind, Token.expectMark, Token.first_cons, List.tail_cons, if_true, pure, Except.pure]

theorem AllLegible.operations (count : Nat) {p : Precedence} : ∀ {rest : List (Operator × Expr)},
    AllLegible p rest → ∀ {depth : Nat} {ts : List Token}, ts.map (·.lexeme) = restLexemes rest →
      ts.length ≤ depth → Operations (Expr.readAtom count depth) p rest ts
  | [], _, depth, ts, hts, _ => by
    rw [restLexemes] at hts
    obtain rfl : ts = [] := List.map_eq_nil_iff.mp hts
    exact .nil
  | (op, e) :: rest, hall, depth, ts, hts, hdepth => by
    rw [AllLegible] at hall
    obtain ⟨hop, he, hrest⟩ := hall
    rw [restLexemes] at hts
    obtain ⟨q, tail, rfl, htail⟩ := Token.of_map_cons hts
    obtain ⟨us, vs, rfl, hus, hvs⟩ := List.map_eq_append_iff.mp htail
    simp only [List.length_cons, List.length_append] at hdepth
    exact .cons q hop (he.readAtom count hus (by omega)) (hrest.operations count hvs (by omega))

end

/-- **A legible expression is read back** from the tokens of its written form, up to where no
operator follows. -/
theorem Legible.read {e : Expr} (he : e.Legible) (count : Nat) {ts more : List Token}
    (hts : ts.map (·.lexeme) = e.lexemes) (hmore : Ends more) :
    Expr.read count (ts ++ more) = .ok (e, more) := by
  have hatom : Expr.readAtom count (ts ++ more).length (ts ++ more) = .ok (e, more) :=
    he.readAtom count hts (by simp) more
  exact readLevel_of_ends (readLevel_of_ends (readLevel_of_ends hatom hmore.2.2) hmore.2.1) hmore.1

/-- **Printing and reading expressions are inverse.** Let an expression be read from tokens of some
text, and mention no anonymous label. Then its written form is scanned without a fault, and from
its tokens the expression is read, however many anonymous labels stand before it, up to the end of
the written form. -/
theorem read_text (text : List Char) (count : Nat) (ts rest : List Token) (e : Expr)
    (hts : ∀ t ∈ ts, t ∈ (Token.scan text).map (·.token)) (hread : read count ts = .ok (e, rest))
    (hnames : ∀ index, anonymousLabel index ∉ e.symbols) (count' : Nat) :
    (∀ s ∈ Token.scan e.text.toList, s.errors = []) ∧
      ∃ fin : Token, fin.lexeme = .endOfFile ∧
        read count' ((Token.scan e.text.toList).map (·.token)) = .ok (e, [fin]) := by
  have hnamed : ∀ t ∈ ts, t.Named := by
    intro t ht
    obtain ⟨s, hs, rfl⟩ := List.mem_map.mp (hts t ht)
    exact Token.named_scan text s hs
  have hlegible : e.Legible := (found_legible.read count ts hnamed (e, rest) hread).1 hnames
  have hspells : Token.Spells e.lexemes e.text.toList := by
    have hend := hlegible.spells (show Cursor.EndsWord [] = true from rfl) .nil
    rwa [List.append_nil, List.append_nil] at hend
  obtain ⟨hlexemes, hfaults⟩ :=
    Token.scanFrom_of_spells hspells (p := .start) (Nat.lt_add_one e.text.toList.length)
  refine ⟨hfaults, ?_⟩
  -- The tokens of the written form are those of the expression and the end of the text.
  have htokens : ((Token.scan e.text.toList).map (·.token)).map (·.lexeme) =
      e.lexemes ++ [.endOfFile] := by
    rw [List.map_map]
    exact hlexemes
  obtain ⟨us, vs, heq, hus, hvs⟩ := List.map_eq_append_iff.mp htokens
  obtain ⟨q, rfl⟩ := Token.of_map_singleton hvs
  rw [heq]
  exact ⟨⟨.endOfFile, q⟩, rfl, hlegible.read count' hus ⟨rfl, rfl, rfl⟩⟩

theorem head?_anonymousLabel (index : Int) :
    (anonymousLabel index).name.toList.head? = some '*' := by
  simp [anonymousLabel, Symbol.name]

/-- An expression with operators of every level, one of which is written like the operand behind
it. -/
def nested : List Char :=
  "A+>b*[_c-$10]^^".toList

theorem read_text_nested :
    let tokens := (Token.scan nested).map (·.token)
    ∃ e rest, read 0 tokens = .ok (e, rest) ∧
      e.text = "[[a + [>b * [_c - 16]]] ^ ^]" ∧
      ∃ fin : Token, fin.lexeme = .endOfFile ∧
        read 3 ((Token.scan e.text.toList).map (·.token)) = .ok (e, [fin]) := by
  intro tokens
  let e : Expr := .chain (.chain (.symbol (.global "a")) [(.add, .chain
    (.highByte (.symbol (.global "b"))) [(.multiply, .chain (.symbol (.inScope "c"))
      [(.subtract, .constant 16)])])]) [(.xor, .programCounter)]
  have hread : read 0 tokens = .ok (e, [⟨.endOfFile, ⟨1, 16⟩⟩]) := by
    rfl
  have hstarts : ∀ s ∈ e.symbols, s.name.toList.head? ≠ some '*' := by decide +kernel
  have hnames : ∀ index, anonymousLabel index ∉ e.symbols := fun index hmem =>
    hstarts _ hmem (head?_anonymousLabel index)
  exact ⟨e, _, hread, by decide +kernel,
    (read_text nested 0 tokens _ e (fun t ht => ht) hread hnames 3).2⟩

end Expr
end Assembler6502
