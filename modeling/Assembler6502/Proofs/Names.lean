import Assembler6502.Proofs.LowerCase
import Assembler6502.Proofs.Occurrence

/-!
# Hidden names

The expansion of a macro gives the arguments names of their own, which start with a star. No name
that is written holds a star, since the star is a mark and names are words. So what is read neither
defines nor mentions a hidden name, and the value of an argument does not depend on the labels with
hidden names.

## Main definitions

* `Symbol.Hidden`, `Expr.Visible`: hidden names, and expressions that mention none
* `Token.Starless`: a token that is no name with a star
* `Item.Spelled`: an item whose names were written
* `Item.Unhidden`, `Program.Unhidden`: what neither defines a hidden name nor hands one to a macro

## Main results

* `Expr.Visible.evaluate_congr`: hidden names do not matter to the value of a visible expression
* `Token.starless_scan`: no name that is written holds a star
* `Source.unhidden_read`: a program that was read has no hidden names
-/

namespace Assembler6502

/-! ## Hidden names -/

/-- A local name with a star. -/
def Symbol.Hidden : Symbol → Prop
  | .global _ => False
  | .inScope name => '*' ∈ name.toList

instance (symbol : Symbol) : Decidable symbol.Hidden :=
  match symbol with
  | .global _ => inferInstanceAs (Decidable False)
  | .inScope name => inferInstanceAs (Decidable ('*' ∈ name.toList))

namespace MacroTable

theorem hidden_hiddenName (n : Nat) : (hiddenName n).Hidden := by
  simp [hiddenName, Symbol.Hidden]

theorem not_hidden_parameterName (n : Nat) : ¬ (parameterName n).Hidden := by
  have hdigit : ¬ ('*'.isDigit = true) := by decide
  intro h
  have hmem : '*' ∈ Nat.toDigits 10 n := by
    have hn : ¬ (n : Int) < 0 := Int.not_lt.2 (Int.natCast_nonneg n)
    simpa [parameterName, Symbol.Hidden, Text.decimal, hn] using h
  exact hdigit (Nat.isDigit_of_mem_toDigits (by decide) (by decide) hmem)

end MacroTable

namespace Symbol

theorem not_hidden_ofText {name : String} (h : '*' ∉ name.toList) : ¬ (ofText name).Hidden := by
  unfold ofText
  split
  · rename_i rest heq
    rw [heq] at h
    simpa [Hidden] using fun hmem => h (List.mem_cons_of_mem _ hmem)
  · exact id

end Symbol

namespace Expr

mutual

/-- No name in the expression is hidden. -/
def Visible : Expr → Prop
  | constant _ | programCounter => True
  | symbol s => ¬ s.Hidden
  | highByte e => Visible e
  | lowByte e => Visible e
  | chain first rest => Visible first ∧ AllVisible rest

/-- No name in a list of operations is hidden. -/
def AllVisible : List (Operator × Expr) → Prop
  | [] => True
  | (_, e) :: rest => Visible e ∧ AllVisible rest

end

variable {ν ν' : Valuation}

theorem allVisible_iff {rest : List (Operator × Expr)} :
    AllVisible rest ↔ ∀ x ∈ rest, x.2.Visible := by
  induction rest with
  | nil => simp [AllVisible]
  | cons x rest ih => rw [AllVisible, ih, List.forall_mem_cons]

/-- The names that occur in a visible expression are not hidden. -/
theorem Visible.not_hidden {e : Expr} {s : Symbol} (h : e.Visible) (hs : (symbol s).Occurs e) :
    ¬ s.Hidden := by
  induction hs with
  | self =>
    rw [Visible] at h
    exact h
  | highByte _ ih | lowByte _ ih =>
    rw [Visible] at h
    exact ih h
  | first _ ih =>
    rw [Visible] at h
    exact ih h.1
  | operand hy _ ih =>
    rw [Visible] at h
    exact ih (allVisible_iff.mp h.2 _ hy)

/-- **A visible expression** has the same value wherever the labels without hidden names and the
program counter are the same. -/
theorem Visible.evaluate_congr (hlookup : ∀ s : Symbol, ¬ s.Hidden → ν.lookup s = ν'.lookup s)
    (hpc : ν.pc = ν'.pc) {e : Expr} (h : e.Visible) : e.evaluate ν = e.evaluate ν' :=
  Expr.evaluate_congr (fun s hs => hlookup s (h.not_hidden hs)) fun _ => hpc

end Expr

/-! ## Names that are written -/

/-- The token is no name with a star. -/
def Token.Starless (t : Token) : Prop :=
  ∀ name, t.lexeme = .identifier name → '*' ∉ name.toList

/-- **No name that is written holds a star**, since no word does. -/
theorem Token.starless_scan (text : List Char) : ∀ s ∈ scan text, s.token.Starless := by
  intro s hs name hname hstar
  have hword := (named_scan text s hs name hname).word '*' hstar
  exact absurd hword (by decide)

/-! ## Reading expressions -/

/-- None of the tokens is a name with a star. -/
abbrev Starless (ts : List Token) : Prop :=
  ∀ t ∈ ts, t.Starless

theorem Starless.tail {ts : List Token} (h : Starless ts) : Starless ts.tail :=
  fun t ht => h t (List.mem_of_mem_tail ht)

namespace Expr

theorem found_visible : Found Token.Starless Visible where
  name t name ht hname := by
    rw [Visible]
    exact Symbol.not_hidden_ofText (ht name hname)
  anonymous index := by
    rw [Visible]
    exact id
  programCounter := by
    rw [Visible]
    trivial
  number l v _ := by
    rw [Visible]
    trivial
  highByte e he := by
    rw [Visible]
    exact he
  lowByte e he := by
    rw [Visible]
    exact he
  chain p first rest hfirst _ hrest := by
    rw [Visible]
    exact ⟨hfirst, allVisible_iff.mpr fun x hx => (hrest x hx).2⟩

/-- **What is read mentions no hidden name.** -/
theorem visible_read (count : Nat) : Reader.Finds Token.Starless Visible (read count) :=
  found_visible.read count

end Expr

/-! ## Reading phrases -/

/-- A label that the item defines has a name without a star, and it hands no hidden name to a
macro. -/
def Item.Spelled : Item → Prop
  | .label symbol _ => ∃ name : String, '*' ∉ name.toList ∧ symbol = .ofText name
  | .invoke _ arguments => ∀ e ∈ arguments, e.Visible
  | _ => True

theorem Item.Neutral.spelled {item : Item} (h : item.Neutral) : item.Spelled := by
  cases item <;> trivial

/-- The item defines no hidden name and hands none to a macro. -/
def Item.Unhidden : Item → Prop
  | .label symbol _ => ¬ symbol.Hidden
  | .invoke _ arguments => ∀ e ∈ arguments, e.Visible
  | _ => True

/-- No item of the program defines a hidden name or hands one to a macro. -/
def Program.Unhidden (program : Program) : Prop :=
  ∀ l ∈ program.leaves, l.2.item.Unhidden

theorem Item.Spelled.unhidden {item : Item} (h : item.Spelled) : item.Unhidden := by
  cases item with
  | label symbol value =>
    obtain ⟨name, hname, rfl⟩ := h
    exact Symbol.not_hidden_ofText hname
  | invoke => exact h
  | _ => trivial

namespace Source

variable {ts : List Token}

theorem yields_readIdentifier {what : String} (hts : Starless ts) :
    Yields (fun x => '*' ∉ x.1.toList ∧ Starless x.2) (readIdentifier what ts) := by
  unfold readIdentifier
  split
  · rename_i name hname
    refine .pure ⟨?_, hts.tail⟩
    cases ts with
    | nil => cases hname
    | cons t ts => exact hts t List.mem_cons_self name hname
  · exact .error _

namespace Setting

variable (g : Setting)

theorem yields_readValue (translate : Bool) (hts : Starless ts) :
    Yields (fun x => (∀ e ∈ x.1, e.Visible) ∧ Starless x.2) (g.readValue translate ts) := by
  unfold readValue
  split
  · refine .pure ⟨fun e he => ?_, hts.tail⟩
    obtain ⟨b, -, rfl⟩ := List.mem_map.mp he
    rw [Expr.Visible]
    trivial
  · refine .bind_of (Expr.visible_read g.count _ hts) fun ⟨e, ts⟩ ⟨he, hts⟩ => .pure ⟨?_, hts⟩
    simpa using he

theorem yields_readValuesFrom (translate : Bool) (fuel : Nat) (hts : Starless ts) :
    Yields (fun es => ∀ e ∈ es, e.Visible) (g.readValuesFrom translate fuel ts) := by
  induction fuel generalizing ts with
  | zero => exact .error _
  | succ fuel ih =>
    unfold readValuesFrom
    refine .bind_of (g.yields_readValue translate hts) fun ⟨values, ts⟩ ⟨hvalues, hts⟩ => ?_
    dsimp only
    split
    · refine .bind_of (ih hts.tail) fun rest hrest => .pure fun e he => ?_
      rcases List.mem_append.mp he with he | he
      · exact hvalues e he
      · exact hrest e he
    · exact .bind fun _ => .pure hvalues

theorem spelled_readInvoke (hts : Starless ts) : Yields Item.Spelled (g.readInvoke ts) := by
  unfold readInvoke
  refine .bind_of (yields_readIdentifier hts) fun ⟨name, ts⟩ ⟨_, hts⟩ => ?_
  dsimp only
  split
  · exact .pure fun e he => nomatch he
  · exact .bind_of (g.yields_readValuesFrom true _ hts) fun _ h => .pure h

theorem spelled_readReserve (hts : Starless ts) :
    Yields (Phrase.Written Item.Spelled) (readReserve ts) := by
  unfold readReserve
  refine .bind_of (yields_readIdentifier hts) fun ⟨name, ts⟩ ⟨hname, _⟩ => ?_
  dsimp only
  split
  · exact .bind fun _ => .bind fun _ => .pure ⟨name, hname, rfl⟩
  · exact .error _

theorem spelled_readDirective (name : String) (hts : Starless ts) :
    Yields (Phrase.Written Item.Spelled) (g.readDirective name ts) := by
  refine g.yields_readDirective ts name (fun _ h => h.spelled) (g.spelled_readInvoke hts)
    (spelled_readReserve hts) ?_
  refine .bind_of (yields_readIdentifier hts) fun ⟨name, ts⟩ ⟨hname, _⟩ => ?_
  exact .bind fun _ => .pure ⟨name, hname, rfl⟩

end Setting

/-- **What a line says** behind its labels has names that were written. -/
theorem spelled_readPhrase (g : Setting) (hts : Starless ts) :
    Yields (Phrase.Written Item.Spelled) (readPhrase g ts) := by
  unfold readPhrase
  split
  · exact .pure trivial
  · exact .pure trivial
  · exact .bind_of (yields_readIdentifier hts.tail) fun ⟨name, ts⟩ ⟨_, hts⟩ =>
      g.spelled_readDirective name hts
  · exact .bind_of (g.spelled_readInvoke hts.tail) fun _ h => .pure h
  · exact .bind fun _ => .pure trivial

/-- The labels that a line starts with have no hidden names. -/
theorem unhidden_takeLabels (count : Nat) (hts : Starless ts) :
    (∀ symbol ∈ (takeLabels count ts).1, (Item.mark symbol).Unhidden) ∧
      Starless (takeLabels count ts).2.2 := by
  fun_induction takeLabels count ts with
  | case1 count name p q rest labels total rest' heq ih =>
    have hrest : Starless rest := hts.tail.tail
    rw [heq] at ih
    obtain ⟨hlabels, hbehind⟩ := ih hrest
    refine ⟨List.forall_mem_cons.mpr ⟨?_, hlabels⟩, hbehind⟩
    exact Symbol.not_hidden_ofText (hts _ List.mem_cons_self name rfl)
  | case2 count p rest labels total rest' heq ih =>
    rw [heq] at ih
    obtain ⟨hlabels, hbehind⟩ := ih hts.tail
    exact ⟨List.forall_mem_cons.mpr ⟨id, hlabels⟩, hbehind⟩
  | case3 => exact ⟨List.forall_mem_nil _, hts⟩

theorem makes_unhidden : Makes Token.Starless Item.Unhidden where
  neutral _ h := h.spelled.unhidden
  scanned := Token.starless_scan
  labels count _ hts := unhidden_takeLabels count hts
  phrase g _ hts phrase hread := (spelled_readPhrase g hts phrase hread).imp fun _ h => h.unhidden

/-- **A program that was read** has no hidden names. -/
theorem unhidden_read (cpu : Cpu) (fs : FileSystem) (stdin : Except FileError (List UInt8))
    (inputs : List Input) : (read cpu fs stdin inputs).program.Unhidden :=
  makes_unhidden.written_read cpu fs stdin inputs

end Source

end Assembler6502
