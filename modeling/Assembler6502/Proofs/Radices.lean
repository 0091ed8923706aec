import Assembler6502.Proofs.Origin
import Mathlib.Data.Nat.Digits.Defs

/-!
# Numerals in four radices

A number is written in hexadecimal, binary, octal or decimal digits, with a mark before all but the
decimal ones. The mark of octal numerals is a zero, which is a digit itself, so that a decimal
numeral must not start with a zero unless it is nothing else. Letters among the digits may be in
either case, and zeros may stand in front behind a mark.

However a number is written, the text is one word, the word is taken for a numeral of the radix that
it was written in, and the digits are read as what they stand for by their places. A number that
fits into a word of 64 bits is therefore read as itself. A larger one is refused; it is never
wrapped around.

## Main definitions

* `Text.IsDigitOf`, `Text.Positional`: a digit, and the number that some digits denote
* `Text.Radix`: the four radices
* `Text.Radix.Writes`: some digits write a number

## Main results

* `Text.readDigits?_of_forall₂`: reading digits adds them up by their places
* `Text.Radix.Writes.readNumeral?`: digits that write a number are read as the number
* `Text.Radix.Writes.classify`: a written number is taken for a numeral of its radix
* `Expr.numerals_denote`: a number is read as itself if it fits, and refused otherwise
-/

namespace Assembler6502
namespace Text

/-! ## Digits and places -/

/-- A character is the digit of a base with a value. Letters may be in either case. -/
def IsDigitOf (base d : Nat) (c : Char) : Prop :=
  d < base ∧ (c = Nat.digitChar d ∨ c = (Nat.digitChar d).toUpper)

instance (base d : Nat) (c : Char) : Decidable (IsDigitOf base d c) :=
  inferInstanceAs (Decidable (_ ∧ _))

/-- Some digits of a base, the most significant first, denote a number by their places. -/
def Positional (base : Nat) (cs : List Char) (n : Nat) : Prop :=
  ∃ ds, List.Forall₂ (IsDigitOf base) ds cs ∧ n = Nat.ofDigits base ds.reverse

/-- **Reading digits adds them up by their places**, behind the digits that were read before. -/
theorem readDigits?_of_forall₂ {base : Nat} {ds : List Nat} {cs : List Char}
    (h : List.Forall₂ (fun d c => digit? base c = some d) ds cs) (m : Nat) :
    readDigits? base m cs = some (m * base ^ ds.length + Nat.ofDigits base ds.reverse) := by
  induction h generalizing m with
  | nil => simp [readDigits?]
  | @cons d c ds cs hd _ ih =>
    -- The first digit counts as often as there are places behind it.
    have hplaces : (m * base + d) * base ^ ds.length + Nat.ofDigits base ds.reverse =
        m * base ^ (ds.length + 1) + (Nat.ofDigits base ds.reverse + base ^ ds.length * d) := by
      ring
    rw [readDigits?, hd]
    simp only
    rw [ih, hplaces, List.reverse_cons, Nat.ofDigits_append, List.length_reverse,
      Nat.ofDigits_singleton, List.length_cons]

/-! ## Radices -/

/-- The radices that numbers are written in. -/
inductive Radix where
  | hexadecimal
  | binary
  | octal
  | decimal
  deriving DecidableEq, Repr

namespace Radix

def base : Radix → Nat
  | hexadecimal => 16
  | binary => 2
  | octal => 8
  | decimal => 10

/-- What stands before the digits. -/
def mark : Radix → List Char
  | hexadecimal => ['$']
  | binary => ['%']
  | octal => ['0']
  | decimal => []

/-- The name of the radix in complaints. -/
def name : Radix → String
  | hexadecimal => "hexadecimal"
  | binary => "binary"
  | octal => "octal"
  | decimal => "decimal"

/-- The numeral with some digits. -/
def lexeme : Radix → List Char → Lexeme
  | hexadecimal => .hex
  | binary => .binary
  | octal => .octal
  | decimal => .decimal

/-- Some digits write a number. A decimal numeral does not start with a zero, unless it is zero. -/
structure Writes (radix : Radix) (digits : List Char) (n : Nat) : Prop where
  ne_nil : digits ≠ []
  positional : Positional radix.base digits n
  leading : radix = decimal → digits.head? = some '0' → digits = ['0']

/-- What holds for all digits of a radix, in either case, holds for what they write. -/
theorem Writes.forall_mem {radix : Radix} {digits : List Char} {n : Nat} {P : Char → Prop}
    (h : radix.Writes digits n)
    (hP : ∀ d < radix.base, P (Nat.digitChar d) ∧ P (Nat.digitChar d).toUpper) :
    ∀ c ∈ digits, P c := by
  obtain ⟨ds, hds, -⟩ := h.positional
  clear h
  induction hds with
  | nil => exact List.forall_mem_nil P
  | cons hd _ ih =>
    intro c hc
    rcases List.mem_cons.mp hc with rfl | hc
    · rcases hd.2 with rfl | rfl
      · exact (hP _ hd.1).1
      · exact (hP _ hd.1).2
    · exact ih c hc

section Writes

variable {radix : Radix} {digits : List Char} {n : Nat}

theorem digit?_digitChar (radix : Radix) : ∀ d < radix.base,
    digit? radix.base (Nat.digitChar d) = some d ∧
      digit? radix.base (Nat.digitChar d).toUpper = some d := by
  cases radix <;> decide

/-- **Digits that write a number are read as the number.** -/
theorem Writes.readNumeral? (h : radix.Writes digits n) :
    readNumeral? radix.base digits = some n := by
  obtain ⟨ds, hds, rfl⟩ := h.positional
  have hread : List.Forall₂ (fun d c => digit? radix.base c = some d) ds digits := by
    refine hds.imp ?_
    rintro d c ⟨hd, rfl | rfl⟩
    · exact (radix.digit?_digitChar d hd).1
    · exact (radix.digit?_digitChar d hd).2
  have hne : digits.isEmpty = false := by simp [h.ne_nil]
  rw [Text.readNumeral?, hne, if_neg Bool.false_ne_true, readDigits?_of_forall₂ hread,
    Nat.zero_mul, Nat.zero_add]

/-- The mark and the digits of a number are one word. -/
theorem Writes.isWord (h : radix.Writes digits n) :
    Cursor.IsWord (radix.mark ++ digits) = true := by
  have hdigits : ∀ c ∈ digits, Cursor.isWordChar c = true ∧ c ≠ '.' :=
    h.forall_mem (P := fun c => Cursor.isWordChar c = true ∧ c ≠ '.')
      (by cases radix <;> decide)
  have hall : digits.all Cursor.isWordChar = true :=
    List.all_eq_true.mpr fun c hc => (hdigits c hc).1
  cases radix with
  | hexadecimal | binary | octal =>
    exact Cursor.isWord_cons.mpr ⟨by decide, by decide, hall⟩
  | decimal =>
    -- Without a mark it is the first digit that starts the word.
    obtain ⟨x, rest, rfl⟩ := List.exists_cons_of_ne_nil h.ne_nil
    obtain ⟨hx, hdot⟩ := hdigits x List.mem_cons_self
    refine Cursor.isWord_cons.mpr ⟨hx, hdot, List.all_eq_true.mpr fun c hc => ?_⟩
    exact (hdigits c (List.mem_cons_of_mem _ hc)).1

/-- **A written number is taken for a numeral of its radix.** -/
theorem Writes.classify (h : radix.Writes digits n) :
    Cursor.classify (radix.mark ++ digits) = radix.lexeme digits := by
  obtain ⟨x, rest, rfl⟩ := List.exists_cons_of_ne_nil h.ne_nil
  cases radix with
  | hexadecimal | binary | octal => rfl
  | decimal =>
    have hx : x.isDigit = true :=
      h.forall_mem (P := fun c => c.isDigit = true) (by decide) x List.mem_cons_self
    by_cases hzero : x = '0'
    · -- A zero in front is all there is.
      obtain ⟨rfl, rfl⟩ : x = '0' ∧ rest = [] := by
        simpa [hzero] using h.leading rfl (by rw [hzero]; rfl)
      rfl
    · exact classify_of_digit hx hzero

/-- A numeral has the value of its digits if it fits into a word, and is refused otherwise. -/
theorem Writes.value (h : radix.Writes digits n) :
    (radix.lexeme digits).value =
      if n ≤ Int64.maxValue.toInt.toNat then .ok (Int64.ofNat n)
      else .error (.invalidNumber radix.name (String.ofList digits)) := by
  have hvalue : Lexeme.numeralValue radix.base radix.name digits =
      if n ≤ Int64.maxValue.toInt.toNat then .ok (Int64.ofNat n)
      else .error (.invalidNumber radix.name (String.ofList digits)) := by
    rw [Lexeme.numeralValue, h.readNumeral?, Option.bind_some, Value.ofNat?]
    by_cases hn : n ≤ Int64.maxValue.toInt.toNat
    · rw [if_pos hn, if_pos hn]
    · rw [if_neg hn, if_neg hn]
  rw [← hvalue]
  cases radix with
  | hexadecimal | binary | octal => rfl
  | decimal =>
    have hall : digits.all Char.isDigit = true := List.all_eq_true.mpr
      (h.forall_mem (P := fun c => c.isDigit = true) (by decide))
    exact if_pos hall

theorem isNumber_lexeme (radix : Radix) (digits : List Char) :
    (radix.lexeme digits).isNumber = true := by
  cases radix <;> rfl

end Writes

end Radix
end Text

/-! ## Expressions -/

namespace Expr

open Assembler6502.Text (Radix)

/-- A numeral without a value is refused, whatever follows. -/
theorem read_refused {count : Nat} {l : Lexeme} {p : Position} {rest : List Token} {e : ParseError}
    (hnumber : l.isNumber = true) (hv : l.value = .error e) :
    read count (⟨l, p⟩ :: rest) = .error e := by
  have hatom : readAtom count (⟨l, p⟩ :: rest : List Token).length (⟨l, p⟩ :: rest) =
      .error e := by
    rw [List.length_cons, readAtom_eq hnumber, hv]
    rfl
  simp only [read, readLevels, readLevel, hatom]
  rfl

/-- **Numerals denote their value or are rejected.** Let a number be written in digits of one of the
four radices, behind the mark of the radix. Then the text is scanned without a fault. If the number
is at most the largest word, the text is read as a constant up to its end, and the constant is the
number, so that it is neither negative nor wrapped around. If the number is larger, the text is
refused as an invalid numeral of the radix, with the digits as they are written. -/
theorem numerals_denote (radix : Radix) (digits : List Char) (n : Nat)
    (h : radix.Writes digits n) (count : Nat) :
    let tokens := (Token.scan (radix.mark ++ digits)).map (·.token)
    (∀ s ∈ Token.scan (radix.mark ++ digits), s.errors = []) ∧
      (n ≤ 2 ^ 63 - 1 → ∃ (v : Value) (fin : Token), fin.lexeme = .endOfFile ∧
        read count tokens = .ok (.constant v, [fin]) ∧ v.toInt = n) ∧
      (2 ^ 63 - 1 < n →
        read count tokens = .error (.invalidNumber radix.name (String.ofList digits))) := by
  intro tokens
  have hspells : Token.Spells [radix.lexeme digits] (radix.mark ++ digits) := by
    have hword := Token.Spells.word h.isWord rfl Token.Spells.nil
    rwa [List.append_nil, h.classify] at hword
  obtain ⟨hlexemes, hfaults⟩ := Token.scanFrom_of_spells hspells (p := .start)
    (Nat.lt_add_one (radix.mark ++ digits).length)
  -- There are two tokens: the numeral, and the end of the text.
  have htokens : tokens.map (·.lexeme) = [radix.lexeme digits, .endOfFile] := by
    rw [List.map_map]
    exact hlexemes
  obtain ⟨p, rest, heq, hrest⟩ := Token.of_map_cons htokens
  obtain ⟨q, tail, rfl, htail⟩ := Token.of_map_cons hrest
  obtain rfl : tail = [] := List.map_eq_nil_iff.mp htail
  have hmax : Int64.maxValue.toInt.toNat = 2 ^ 63 - 1 := rfl
  have hvalue := h.value
  rw [hmax] at hvalue
  refine ⟨hfaults, fun hn => ?_, fun hn => ?_⟩
  · rw [if_pos hn] at hvalue
    refine ⟨Int64.ofNat n, ⟨.endOfFile, q⟩, rfl, ?_, Int64.toInt_ofNat_of_lt (by omega)⟩
    rw [heq]
    exact read_number hvalue ⟨rfl, rfl, rfl⟩
  · rw [if_neg (by omega)] at hvalue
    rw [heq]
    exact read_refused (radix.isNumber_lexeme digits) hvalue

/-- The largest word, in digits of both cases. -/
def largestWord : List Char :=
  "7fffFFFFffffFFFF".toList

/-- The number behind the largest word, with zeros in front. -/
def beyondWords : List Char :=
  "001000000000000000000000".toList

theorem numerals_denote_limits :
    Radix.hexadecimal.Writes largestWord (2 ^ 63 - 1) ∧
      Radix.octal.Writes beyondWords (2 ^ 63) ∧
      (∃ (v : Value) (fin : Token), fin.lexeme = .endOfFile ∧
        read 0 ((Token.scan ('$' :: largestWord)).map (·.token)) = .ok (.constant v, [fin]) ∧
        v.toInt = 2 ^ 63 - 1) ∧
      read 0 ((Token.scan ('0' :: beyondWords)).map (·.token)) =
        .error (.invalidNumber "octal" "001000000000000000000000") := by
  have hlargest : Radix.hexadecimal.Writes largestWord (2 ^ 63 - 1) :=
    ⟨by decide, ⟨7 :: List.replicate 15 15, by decide, by decide⟩, by decide⟩
  have hbeyond : Radix.octal.Writes beyondWords (2 ^ 63) :=
    ⟨by decide, ⟨0 :: 0 :: 1 :: List.replicate 21 0, by decide, by decide⟩, by decide⟩
  obtain ⟨-, hread, -⟩ := numerals_denote .hexadecimal largestWord _ hlargest 0
  obtain ⟨-, -, hrefused⟩ := numerals_denote .octal beyondWords _ hbeyond 0
  exact ⟨hlargest, hbeyond, hread (Nat.le_refl _), hrefused (by decide)⟩

end Expr
end Assembler6502
