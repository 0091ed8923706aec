import Assembler6502.Text.Numeral

/-!
# Numerals denote what they were made of

The digits of a number, read in the base that they were written in, give the number back. So a
number is known by its decimal numeral.

## Main results

* `Text.forall_mem_toDigits`: what holds for every digit holds for all digits of a number
* `Text.readDigits?_toDigits`: digits that are read back one by one are read back
* `Text.readNumeral?_decimal`: the decimal numeral of a number denotes it
* `Text.decimal_inj`: numbers with the same decimal numeral are the same
-/

namespace Assembler6502
namespace Text

/-- What holds for every digit holds for all digits of a number. -/
theorem forall_mem_toDigits {base : Nat} {P : Char → Prop} (hbase : 1 < base)
    (hP : ∀ d < base, P (Nat.digitChar d)) (n : Nat) : ∀ c ∈ Nat.toDigits base n, P c := by
  induction n using Nat.strongRecOn with
  | ind n ih =>
    intro c hc
    by_cases hn : n < base
    · rw [Nat.toDigits_of_lt_base hn, List.mem_singleton] at hc
      exact hc ▸ hP n hn
    · have hpos : 0 < n := by omega
      rw [Nat.toDigits_of_base_le hbase (by omega), List.mem_append, List.mem_singleton] at hc
      rcases hc with hc | rfl
      · exact ih (n / base) (Nat.div_lt_self hpos hbase) c hc
      · exact hP (n % base) (Nat.mod_lt n (by omega))

/-- A number that is not zero starts with a digit that is not zero. -/
theorem exists_toDigits_cons {base n : Nat} (hbase : 1 < base) (hn : 0 < n) :
    ∃ d rest, 0 < d ∧ d < base ∧ Nat.toDigits base n = Nat.digitChar d :: rest := by
  induction n using Nat.strongRecOn with
  | ind n ih =>
    by_cases hlt : n < base
    · exact ⟨n, [], hn, hlt, Nat.toDigits_of_lt_base hlt⟩
    · obtain ⟨d, rest, hpos, hd, hrest⟩ := ih (n / base) (Nat.div_lt_self hn hbase)
        (Nat.div_pos (by omega) (by omega))
      refine ⟨d, rest ++ [Nat.digitChar (n % base)], hpos, hd, ?_⟩
      rw [Nat.toDigits_of_base_le hbase (by omega), hrest, List.cons_append]

theorem readDigits?_append {base n : Nat} {cs ds : List Char} :
    readDigits? base n (cs ++ ds) = (readDigits? base n cs).bind (readDigits? base · ds) := by
  induction cs generalizing n with
  | nil => rfl
  | cons c cs ih =>
    simp only [List.cons_append, readDigits?]
    cases digit? base c with
    | none => rfl
    | some d => exact ih

/-- **The digits of a number denote the number**, in whatever form each of them is written. -/
theorem readDigits?_toDigits {base : Nat} {form : Char → Char} (hbase : 1 < base)
    (hform : ∀ d < base, digit? base (form (Nat.digitChar d)) = some d) (n : Nat) :
    readDigits? base 0 ((Nat.toDigits base n).map form) = some n := by
  induction n using Nat.strongRecOn with
  | ind n ih =>
    by_cases hn : n < base
    · rw [Nat.toDigits_of_lt_base hn]
      simp [readDigits?, hform n hn]
    · have hpos : 0 < n := by omega
      -- All digits but the last one are those of the quotient.
      rw [Nat.toDigits_of_base_le hbase (by omega), List.map_append, readDigits?_append,
        ih (n / base) (Nat.div_lt_self hpos hbase)]
      simp only [Option.bind_some, List.map_cons, List.map_nil, readDigits?,
        hform (n % base) (Nat.mod_lt n (by omega))]
      rw [Nat.mul_comm, Nat.div_add_mod]

theorem toList_decimal (n : Nat) : (decimal n).toList = Nat.toDigits 10 n := by
  have hn : ¬ (n : Int) < 0 := Int.not_lt.2 (Int.natCast_nonneg n)
  simp [decimal, hn]

/-- **The decimal numeral of a number denotes it.** -/
theorem readNumeral?_decimal (n : Nat) : readNumeral? 10 (decimal n).toList = some n := by
  have hdigits : readDigits? 10 0 ((Nat.toDigits 10 n).map id) = some n :=
    readDigits?_toDigits (by decide) (by decide) n
  have hne : (Nat.toDigits 10 n).isEmpty = false := by simp [Nat.toDigits_ne_nil]
  rw [List.map_id] at hdigits
  rw [toList_decimal, readNumeral?, hne]
  exact hdigits

theorem decimal_inj {m n : Nat} (h : decimal m = decimal n) : m = n := by
  have hread := readNumeral?_decimal m
  rw [h, readNumeral?_decimal n] at hread
  exact (Option.some.inj hread).symm

end Text
end Assembler6502
