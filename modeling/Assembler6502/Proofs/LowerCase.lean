import Assembler6502.Proofs.Readers
import Assembler6502.Proofs.Spelling

/-!
# Names in lower case

Every name is brought to lower case when it is read. The lower case form of a name is a name: it is
scanned as one word, it does not start like a numeral or a directive, and to bring it to lower case
once more does nothing. For the characters of the tables this is a fact about runs of code points:
no run, moved by its shift, meets a run of characters that have a lower case form of their own, or
a run of blanks.

## Main definitions

* `Text.CaseRun.Holds`, `Text.CaseRun.misses`: the code points of a run, and runs that moved away
* `Text.Settled`: the characters that are their own lower case form
* `Text.IsName`: the names as they are read

## Main results

* `Text.IsName.classify`: a name is scanned as itself
* `Token.named_scan`: the names of a text
-/

namespace Assembler6502
namespace Text

/-! ## Runs -/

namespace CaseRun

/-- The run holds a code point. -/
def Holds (r : CaseRun) (n : Nat) : Prop :=
  r.first ≤ n ∧ n ≤ r.last ∧ (n - r.first) % r.step = 0

/-- Where the code points of a run are moved to: the least and the largest one. -/
def low (r : CaseRun) : Nat :=
  (r.first + r.shift).toNat

def high (r : CaseRun) : Nat :=
  (r.last + r.shift).toNat

/-- The code points of one run, moved by its shift, do not lie in the other one: it lies elsewhere,
or between them, where every other code point is left out. -/
def misses (r q : CaseRun) : Bool :=
  Nat.blt r.high q.first || Nat.blt q.last r.low ||
    ((r.step == 2 || r.first == r.last) && q.step == 2 && (r.low + q.first) % 2 == 1)

variable {r q : CaseRun} {n m : Nat}

theorem not_holds_of_misses (h : r.misses q = true) (hlow : 0 ≤ r.first + r.shift)
    (hn : r.Holds n) (hm : (m : Int) = n + r.shift) : ¬ q.Holds m := by
  rintro ⟨hfrom, hto, hstep⟩
  obtain ⟨hfirst, hlast, hmod⟩ := hn
  simp only [misses, low, high, Bool.or_eq_true, Bool.and_eq_true, Nat.blt_eq, beq_iff_eq] at h
  rcases h with (h | h) | ⟨⟨hr, hq⟩, hodd⟩
  · omega
  · omega
  · rw [hq] at hstep
    rcases hr with hr | hr
    · rw [hr] at hmod
      omega
    · omega

end CaseRun

/-- The runs that no lower case form lies in: those of the characters that have one themselves, the
two letters that are treated on their own, and the blanks. -/
def unsettledRuns : List CaseRun :=
  lowercaseRuns ++ [⟨0x130, 0x130, 1, 0⟩, ⟨0x3a3, 0x3a3, 1, 0⟩] ++
    blankRanges.map fun r => ⟨r.1, r.2, 1, 0⟩

theorem misses_unsettledRuns :
    (lowercaseRuns.all fun r => unsettledRuns.all fun q => r.misses q) = true := by
  decide +kernel

/-- Lower case forms are characters, and only the Kelvin sign has one in ASCII. -/
theorem bounds_lowercaseRuns : ∀ r ∈ lowercaseRuns,
    (r.last + r.shift < 0xd800 ∨ 0xdfff < r.first + r.shift ∧ r.last + r.shift < 0x110000) ∧
      (0x80 ≤ r.first + r.shift ∨ r.first = r.last ∧ r.first + r.shift = 0x6b) := by
  decide +kernel

theorem toNat_ofNat {m : Nat} (h : m < 0xd800 ∨ 0xdfff < m ∧ m < 0x110000) :
    (Char.ofNat m).toNat = m := by
  rw [Char.ofNat, dif_pos h]
  rfl

/-- What a character is moved to. -/
theorem moved {r : CaseRun} (hr : r ∈ lowercaseRuns) {n : Nat} (hn : r.Holds n) :
    Char.ofNat (n + r.shift).toNat = 'k' ∨
      0x80 ≤ (Char.ofNat (n + r.shift).toNat).toNat ∧
        ∀ q ∈ unsettledRuns, ¬ q.Holds (Char.ofNat (n + r.shift).toNat).toNat := by
  obtain ⟨hvalid, hlow⟩ := bounds_lowercaseRuns r hr
  obtain ⟨hfirst, hlast, -⟩ := id hn
  rcases hlow with hlow | ⟨hsingle, hkelvin⟩
  · have hm : ((n + r.shift).toNat : Int) = n + r.shift := by omega
    have hmisses (q : CaseRun) (hq : q ∈ unsettledRuns) : r.misses q = true :=
      List.all_eq_true.mp (List.all_eq_true.mp misses_unsettledRuns r hr) q hq
    rw [toNat_ofNat (by omega)]
    exact .inr ⟨by omega, fun q hq => CaseRun.not_holds_of_misses (hmisses q hq) (by omega) hn hm⟩
  · have hm : (n + r.shift).toNat = 0x6b := by omega
    rw [hm]
    exact .inl rfl

/-! ## Characters -/

/-- The character is its own lower case form, in whatever word it stands. -/
def Settled (c : Char) : Prop :=
  c ≠ 'Σ' ∧ lowercaseChar c = [c]

instance (c : Char) : Decidable (Settled c) :=
  inferInstanceAs (Decidable (_ ∧ _))

/-- A word that starts with the character is a name. -/
def startsName (c : Char) : Bool :=
  c != '.' && c != '$' && c != '%' && c != '\x27' && !c.isDigit

theorem of_ascii {P : Char → Prop} (hP : ∀ n < 0x80, P (Char.ofNat n)) {c : Char}
    (hc : c.toNat < 0x80) : P c := by
  have h := hP c.toNat hc
  rwa [Char.ofNat_toNat] at h

theorem ofChar?_eq_none {c : Char} (hc : 0x80 ≤ c.toNat) : Punctuation.ofChar? c = none := by
  unfold Punctuation.ofChar?
  split <;> first | rfl | exact absurd hc (by decide)

theorem isWordChar_of_not_blank {c : Char} (hc : 0x80 ≤ c.toNat) (hblank : isBlank c = false) :
    Cursor.isWordChar c = true := by
  have hsemicolon : c ≠ ';' := by
    rintro rfl
    exact absurd hc (by decide)
  have hquote : c ≠ '"' := by
    rintro rfl
    exact absurd hc (by decide)
  simp [Cursor.isWordChar, hblank, hsemicolon, hquote, ofChar?_eq_none hc]

theorem startsName_of_not_ascii {c : Char} (hc : 0x80 ≤ c.toNat) : startsName c = true := by
  have hne (d : Char) (hd : d.toNat < 0x80) : c ≠ d := by
    rintro rfl
    omega
  have hdigit : c.isDigit = false := by
    rw [Bool.eq_false_iff]
    intro hdigit
    obtain ⟨-, hhigh⟩ : 48 ≤ c.val ∧ c.val ≤ 57 := by simpa [Char.isDigit] using hdigit
    have hnat : c.toNat ≤ 57 := UInt32.le_iff_toNat_le.1 hhigh
    omega
  simp [startsName, hne '.' (by decide), hne '$' (by decide), hne '%' (by decide),
    hne '\x27' (by decide), hdigit]

/-- The characters beyond ASCII that no run holds. -/
theorem settled_of_not_holds {c : Char} (hc : 0x80 ≤ c.toNat)
    (hruns : ∀ q ∈ unsettledRuns, ¬ q.Holds c.toNat) : Settled c := by
  have hdotted : c.toNat ≠ 0x130 := by
    intro heq
    refine hruns ⟨0x130, 0x130, 1, 0⟩ (by simp [unsettledRuns]) ?_
    rw [heq]
    exact ⟨by decide, by decide, by decide⟩
  refine ⟨?_, ?_⟩
  · rintro rfl
    refine hruns ⟨0x3a3, 0x3a3, 1, 0⟩ (by simp [unsettledRuns]) ?_
    exact ⟨by decide, by decide, by decide⟩
  · have hnone : (lowercaseRuns.find? fun r => r.first ≤ c.toNat && c.toNat ≤ r.last &&
        (c.toNat - r.first) % r.step == 0) = none := by
      refine List.find?_eq_none.mpr fun r hr hholds => ?_
      refine hruns r (by simp [unsettledRuns, hr]) ?_
      simpa [CaseRun.Holds, and_assoc] using hholds
    unfold lowercaseChar
    rw [if_neg (Nat.not_lt.mpr hc), if_neg hdotted, hnone]

theorem isBlank_of_not_holds {c : Char} (hruns : ∀ q ∈ unsettledRuns, ¬ q.Holds c.toNat) :
    isBlank c = false := by
  rw [Bool.eq_false_iff]
  intro hblank
  obtain ⟨r, hr, hin⟩ := List.any_eq_true.mp hblank
  refine hruns ⟨r.1, r.2, 1, 0⟩ ?_ ?_
  · exact List.mem_append_right _ (List.mem_map.mpr ⟨r, hr, rfl⟩)
  · obtain ⟨hlow, hhigh⟩ : r.1 ≤ c.toNat ∧ c.toNat ≤ r.2 := by simpa using hin
    exact ⟨hlow, hhigh, Nat.mod_one _⟩

/-- What the lower case form of a character has in common with the character. -/
structure Lowers (c d : Char) : Prop where
  settled : Settled d
  word : Cursor.isWordChar c = true → Cursor.isWordChar d = true
  start : startsName c = true → startsName d = true

instance (c d : Char) : Decidable (Lowers c d) :=
  decidable_of_iff (Settled d ∧ (Cursor.isWordChar c = true → Cursor.isWordChar d = true) ∧
    (startsName c = true → startsName d = true))
    ⟨fun h => ⟨h.1, h.2.1, h.2.2⟩, fun h => ⟨h.settled, h.word, h.start⟩⟩

theorem lowers_toLower : ∀ n < 0x80, Lowers (Char.ofNat n) (Char.ofNat n).toLower := by
  decide +kernel

/-- **The lower case form of a character** is settled, belongs to words if the character does, and
starts a name if the character does. -/
theorem mem_lowercaseChar {c d : Char} (hc : c ≠ 'Σ') (hd : d ∈ lowercaseChar c) : Lowers c d := by
  unfold lowercaseChar at hd
  dsimp only at hd
  split at hd
  · rename_i hascii
    rw [List.mem_singleton.mp hd]
    exact of_ascii (P := fun c => Lowers c c.toLower) lowers_toLower hascii
  · rename_i hascii
    split at hd
    · simp only [List.mem_cons, List.not_mem_nil, or_false] at hd
      rcases hd with rfl | rfl
      · exact ⟨by decide +kernel, fun _ => by decide, fun _ => by decide⟩
      · exact ⟨by decide +kernel, fun _ => by decide, fun _ => by decide⟩
    · rename_i hdotted
      split at hd
      · -- A character of a run is moved to the Kelvin sign's letter, or to where there is no run.
        rename_i r hr
        have hholds : r.Holds c.toNat := by
          simpa [CaseRun.Holds, and_assoc] using List.find?_some hr
        rw [List.mem_singleton.mp hd]
        rcases moved (List.mem_of_find?_eq_some hr) hholds with hk | ⟨hhigh, hruns⟩
        · rw [hk]
          exact ⟨by decide +kernel, fun _ => by decide, fun _ => by decide⟩
        · exact ⟨settled_of_not_holds hhigh hruns,
            fun _ => isWordChar_of_not_blank hhigh (isBlank_of_not_holds hruns),
            fun _ => startsName_of_not_ascii hhigh⟩
      · -- Any other character stays what it is.
        rename_i hnone
        obtain rfl := List.mem_singleton.mp hd
        refine ⟨⟨hc, ?_⟩, id, id⟩
        unfold lowercaseChar
        rw [if_neg hascii, if_neg hdotted, hnone]

theorem lowers_sigma : Lowers 'Σ' 'σ' ∧ Lowers 'Σ' 'ς' := by
  decide +kernel

/-! ## Words -/

/-- The lower case form of a character in its word. -/
theorem lowercaseAfter_cons (before : List Char) (c : Char) (rest : List Char) :
    ∃ d ds, lowercaseAfter before (c :: rest) = d :: ds ++ lowercaseAfter (c :: before) rest ∧
      ∀ x ∈ d :: ds, Lowers c x := by
  rw [lowercaseAfter]
  by_cases hc : c = 'Σ'
  · -- A sigma at the end of a word has a form of its own.
    subst hc
    rw [if_pos rfl]
    split
    · exact ⟨'ς', [], rfl, by simpa using lowers_sigma.2⟩
    · exact ⟨'σ', [], rfl, by simpa using lowers_sigma.1⟩
  · rw [if_neg hc]
    have hall : ∀ x ∈ lowercaseChar c, Lowers c x := fun x => mem_lowercaseChar hc
    cases hform : lowercaseChar c with
    | nil =>
      -- The form of a character is never empty.
      unfold lowercaseChar at hform
      dsimp only at hform
      split at hform
      · cases hform
      · split at hform
        · cases hform
        · split at hform <;> cases hform
    | cons d ds => exact ⟨d, ds, rfl, hform ▸ hall⟩

/-- Every character of the lower case form comes from a character of the text. -/
theorem mem_lowercaseAfter {before cs : List Char} {d : Char} (hd : d ∈ lowercaseAfter before cs) :
    ∃ c ∈ cs, Lowers c d := by
  induction cs generalizing before with
  | nil => cases hd
  | cons c rest ih =>
    obtain ⟨x, xs, heq, hall⟩ := lowercaseAfter_cons before c rest
    rw [heq] at hd
    rcases List.mem_append.mp hd with hd | hd
    · exact ⟨c, List.mem_cons_self, hall d hd⟩
    · obtain ⟨c', hc', hlowers⟩ := ih hd
      exact ⟨c', List.mem_cons_of_mem _ hc', hlowers⟩

theorem lowercaseAfter_of_settled {before cs : List Char} (h : ∀ c ∈ cs, Settled c) :
    lowercaseAfter before cs = cs := by
  induction cs generalizing before with
  | nil => rfl
  | cons c rest ih =>
    obtain ⟨⟨hsigma, hform⟩, hrest⟩ := List.forall_mem_cons.mp h
    rw [lowercaseAfter, if_neg hsigma, hform, ih hrest]
    rfl

/-! ## Names -/

/-- A name as it is read: a word in lower case that starts neither like a numeral nor with a dot. -/
structure IsName (cs : List Char) : Prop where
  settled : ∀ c ∈ cs, Settled c
  word : ∀ c ∈ cs, Cursor.isWordChar c = true
  start : ∃ x rest, cs = x :: rest ∧ startsName x = true

/-- The lower case form of a word that starts like a name is a name. -/
theorem isName_lowercase {x : Char} {rest : List Char}
    (hword : ∀ c ∈ x :: rest, Cursor.isWordChar c = true) (hstart : startsName x = true) :
    IsName (lowercase (x :: rest)) := by
  refine ⟨fun d hd => ?_, fun d hd => ?_, ?_⟩
  · obtain ⟨c, -, hlowers⟩ := mem_lowercaseAfter hd
    exact hlowers.settled
  · obtain ⟨c, hc, hlowers⟩ := mem_lowercaseAfter hd
    exact hlowers.word (hword c hc)
  · obtain ⟨d, ds, heq, hall⟩ := lowercaseAfter_cons [] x rest
    exact ⟨d, _, heq, (hall d List.mem_cons_self).start hstart⟩

theorem classify_of_startsName {x : Char} {rest : List Char} (hstart : startsName x = true) :
    Cursor.classify (x :: rest) = .identifier (String.ofList (lowercase (x :: rest))) := by
  simp only [startsName, Bool.and_eq_true, bne_iff_ne, ne_eq, Bool.not_eq_true'] at hstart
  obtain ⟨⟨⟨⟨-, hdollar⟩, hpercent⟩, hquote⟩, hdigit⟩ := hstart
  have hzero : x ≠ '0' := by
    rintro rfl
    exact absurd hdigit (by decide)
  unfold Cursor.classify
  split <;> simp_all

namespace IsName

variable {cs : List Char}

theorem isWord (h : IsName cs) : Cursor.IsWord cs = true := by
  obtain ⟨x, rest, rfl, hstart⟩ := h.start
  obtain ⟨hx, hrest⟩ := List.forall_mem_cons.mp h.word
  refine Cursor.isWord_cons.mpr ⟨hx, ?_, List.all_eq_true.mpr hrest⟩
  rintro rfl
  exact absurd hstart (by decide)

/-- **A name is scanned as itself.** -/
theorem classify (h : IsName cs) : Cursor.classify cs = .identifier (String.ofList cs) := by
  obtain ⟨x, rest, rfl, hstart⟩ := h.start
  rw [classify_of_startsName hstart, lowercase, lowercaseAfter_of_settled h.settled]

end IsName
end Text

/-! ## The names of a text -/

/-- If the token is a name, then it is one in lower case. -/
def Token.Named (t : Token) : Prop :=
  ∀ name, t.lexeme = .identifier name → Text.IsName name.toList

namespace Cursor

theorem not_of_dropWhile {p : Char → Bool} {cs rest : List Char} {x : Char}
    (h : cs.dropWhile p = x :: rest) : p x = false := by
  have hhead := List.head?_dropWhile_not p cs
  rw [h] at hhead
  exact hhead

/-- Where a token starts there is no blank and no comment, but the end of a line at most. -/
theorem head_skipToToken {c : Cursor} {x : Char} {rest : List Char}
    (h : c.skipToToken.rest = x :: rest) : x = '\n' ∨ Text.isBlank x = false ∧ x ≠ ';' := by
  unfold skipToToken at h
  dsimp only at h
  split at h
  · -- A comment was skipped, which leads to the end of its line.
    have hline := not_of_dropWhile h
    exact .inl (by simpa using hline)
  · rename_i hcomment
    have hblank := not_of_dropWhile h
    by_cases hx : x = '\n'
    · exact .inl hx
    · refine .inr ⟨by simpa [hx] using hblank, ?_⟩
      rintro rfl
      exact hcomment rest h

/-- A word that is scanned as a name starts like one. -/
theorem startsName_of_classify {x : Char} {rest : List Char} {name : String} (hdot : x ≠ '.')
    (h : classify (x :: rest) = .identifier name) : Text.startsName x = true := by
  unfold classify at h
  split at h
  · cases h
  · cases h
  · cases h
  · cases h
  · cases h
  · rename_i hdollar hpercent hzero hquote heq
    obtain ⟨rfl, -⟩ := List.cons.inj heq
    split at h
    · cases h
    · rename_i hdigit
      simp_all [Text.startsName]
  · rename_i heq
    cases heq

end Cursor

namespace Token

theorem named_next (c : Cursor) : c.next.token.Named := by
  unfold Cursor.next
  dsimp only
  split
  · rintro name ⟨⟩
  · rename_i x rest hrest
    split
    · rintro name ⟨⟩
    · rename_i hline
      split
      · rintro name ⟨⟩
      · rename_i hquote
        split
        · rintro name ⟨⟩
        · rename_i hmark
          -- What is left is a word, and no mark is part of it, not even a dot.
          obtain ⟨hblank, hcomment⟩ := (Cursor.head_skipToToken hrest).resolve_left hline
          have hdot : x ≠ '.' := by
            rintro rfl
            cases hmark
          have hx : Cursor.isWordChar x = true := by
            simp [Cursor.isWordChar, hblank, hcomment, hquote, hmark]
          intro name hname
          rw [hrest, List.takeWhile_cons, if_pos hx] at hname
          have hstart := Cursor.startsName_of_classify hdot hname
          rw [Text.classify_of_startsName hstart] at hname
          cases hname
          rw [String.toList_ofList]
          refine Text.isName_lowercase ?_ hstart
          exact List.forall_mem_cons.mpr ⟨hx, List.all_eq_true.mp List.all_takeWhile⟩

/-- **The names of a text** are names in lower case. -/
theorem named_scan (text : List Char) : ∀ s ∈ scan text, s.token.Named :=
  forall_scan named_next text

end Token
end Assembler6502
