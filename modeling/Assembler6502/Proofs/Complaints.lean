import Assembler6502.Proofs.LineByLine

/-!
# What can be wrong with a line

A phrase is read from the tokens of a line alone, so what is wrong with it is never a matter of
files. What a phrase does can be at fault with files: they can be missing, or a character map can
have the wrong size. But that a file includes itself is found out by the reading of files and by
nothing else, and a fault inside a token is found out by scanning and does not stop the line.

## Main definitions

* `Fails P x`: every failure of a computation has a property
* `ParseError.InLine`: the faults that have nothing to do with files
* `ParseError.isRecursive`, `ParseError.isLexical`: the fault that a file includes itself, and the
  faults inside tokens

## Main results

* `Source.fails_readPhrase`: a phrase that cannot be read is at fault by itself
* `Reading.fails_lineOutcome`: no line is at fault because a file includes itself or because of a
  fault inside a token
-/

namespace Assembler6502

/-- Every failure of a computation has a property. -/
def Fails {ε α : Type} (P : ε → Prop) (x : Except ε α) : Prop :=
  ∀ e, x = .error e → P e

namespace Fails

variable {ε α β : Type} {P : ε → Prop} {x : Except ε α} {f : α → Except ε β}

theorem pure (a : α) : Fails P (Pure.pure a : Except ε α) := by
  rintro e ⟨⟩

theorem error {e : ε} (h : P e) : Fails P (.error e : Except ε α) := by
  rintro _ ⟨⟩
  exact h

theorem bind (hx : Fails P x) (h : ∀ a, Fails P (f a)) : Fails P (x >>= f) := by
  intro e he
  cases hxe : x with
  | error err =>
    rw [hxe] at he
    cases he
    exact hx _ hxe
  | ok a => exact h a e (by rwa [hxe] at he)

theorem guard {c : Prop} [Decidable c] {e : ε} {f : Unit → Except ε β} (he : P e)
    (h : Fails P (f ())) : Fails P (if c then throw e >>= f else f ()) := by
  split
  · exact .bind (.error he) fun _ => h
  · exact h

theorem mono {Q : ε → Prop} (h : Fails P x) (hPQ : ∀ e, P e → Q e) : Fails Q x :=
  fun e he => hPQ e (h e he)

theorem mapM {f : α → Except ε β} (h : ∀ a, Fails P (f a)) (l : List α) : Fails P (l.mapM f) := by
  induction l with
  | nil => exact .pure _
  | cons a rest ih =>
    rw [List.mapM_cons]
    exact .bind (h a) fun _ => .bind ih fun _ => .pure _

end Fails

/-- What can be wrong with the tokens of a line, whatever files there are. -/
def ParseError.InLine : ParseError → Prop
  | .lexical _ | .unreadable _ _ | .charmapSize _ | .recursiveInclude _ => False
  | _ => True

/-- The fault is that a file includes itself. -/
def ParseError.isRecursive : ParseError → Bool
  | .recursiveInclude _ => true
  | _ => false

/-- The fault is inside a token. -/
def ParseError.isLexical : ParseError → Bool
  | .lexical _ => true
  | _ => false

/-- The fault is that of a phrase: it was not found by scanning, and not by the reading of files. -/
def ParseError.OfPhrase (e : ParseError) : Prop :=
  e.isLexical = false ∧ e.isRecursive = false

theorem ParseError.InLine.ofPhrase {e : ParseError} (h : e.InLine) : e.OfPhrase := by
  cases e with
  | lexical _ | recursiveInclude _ => exact h.elim
  | _ => exact ⟨rfl, rfl⟩

/-! ## Expressions -/

theorem Token.fails_expectMark (mark : Punctuation) (what : String) (ts : List Token) :
    Fails ParseError.InLine (expectMark mark what ts) := by
  unfold expectMark
  split
  · exact .pure _
  · exact .error trivial

theorem Lexeme.fails_numeralValue (base : Nat) (kind : String) (digits : List Char) :
    Fails ParseError.InLine (numeralValue base kind digits) := by
  unfold numeralValue
  split
  · exact .pure _
  · exact .error trivial

theorem Lexeme.fails_value (l : Lexeme) : Fails ParseError.InLine l.value := by
  unfold value
  split
  · exact fails_numeralValue _ _ _
  · exact fails_numeralValue _ _ _
  · exact fails_numeralValue _ _ _
  · split
    · exact fails_numeralValue _ _ _
    · exact .error trivial
  · exact .pure _
  · exact .error trivial
  · exact .error trivial

namespace Expr

variable {operand : Reader Expr}

theorem fails_readLevel (level : Level) (h : ∀ ts, Fails ParseError.InLine (operand ts))
    (ts : List Token) : Fails ParseError.InLine (readLevel level operand ts) := by
  have hoperations (fuel : Nat) : ∀ ts : List Token,
      Fails ParseError.InLine (readOperations level operand fuel ts) := by
    induction fuel with
    | zero => exact fun ts => .pure _
    | succ fuel ih =>
      intro ts
      unfold readOperations
      split
      · exact .pure _
      · exact .bind (h _) fun ⟨_, ts⟩ => .bind (ih ts) fun ⟨_, _⟩ => .pure _
  exact .bind (h ts) fun ⟨_, ts⟩ => .bind (hoperations _ ts) fun ⟨_, _⟩ => .pure _

theorem fails_readLevels (h : ∀ ts, Fails ParseError.InLine (operand ts)) (ts : List Token) :
    Fails ParseError.InLine (readLevels operand ts) :=
  fails_readLevel _ (fails_readLevel _ (fails_readLevel _ h)) ts

theorem fails_readAtom (count depth : Nat) (ts : List Token) :
    Fails ParseError.InLine (readAtom count depth ts) := by
  induction depth generalizing ts with
  | zero => exact .error trivial
  | succ depth ih =>
    unfold readAtom
    split
    · exact .error trivial
    · -- The cases are names, the program counter, brackets, two kinds of anonymous labels, the high
      -- and the low byte, and numerals.
      split
      · exact .pure _
      · exact .pure _
      · exact .bind (fails_readLevels ih _) fun _ =>
          .bind (Token.fails_expectMark _ _ _) fun _ => .pure _
      · exact .pure _
      · exact .pure _
      · exact .bind (ih _) fun _ => .pure _
      · exact .bind (ih _) fun _ => .pure _
      · split
        · exact .bind (Lexeme.fails_value _) fun _ => .pure _
        · exact .error trivial

theorem fails_read (count : Nat) (ts : List Token) :
    Fails ParseError.InLine (read count ts) :=
  fails_readLevels (fails_readAtom count ts.length) ts

end Expr

/-! ## Phrases -/

namespace Source

variable (ts : List Token)

theorem fails_readIdentifier (what : String) :
    Fails ParseError.InLine (readIdentifier what ts) := by
  unfold readIdentifier
  split
  · exact .pure _
  · exact .error trivial

theorem fails_expectRegister (register : String) :
    Fails ParseError.InLine (expectRegister register ts) := by
  unfold expectRegister
  split
  · exact .pure _
  · exact .error trivial

theorem fails_expectEnd : Fails ParseError.InLine (expectEnd ts) := by
  unfold expectEnd
  split
  · exact .pure _
  · exact .error trivial

theorem fails_expectEnd_pure {α : Type} (a : α) :
    Fails ParseError.InLine (do expectEnd ts; return a) :=
  .bind (fails_expectEnd ts) fun _ => .pure a

theorem fails_readString : Fails ParseError.InLine (readString ts) := by
  unfold readString
  split
  · exact .pure _
  · exact .error trivial

namespace Setting

variable (g : Setting)

theorem fails_readFileName : Fails ParseError.InLine (readFileName ts) :=
  .bind (fails_readString ts) fun ⟨_, ts⟩ => fails_expectEnd_pure ts _

theorem fails_readSingle : Fails ParseError.InLine (g.readSingle ts) :=
  .bind (Expr.fails_read _ ts) fun ⟨_, ts⟩ => fails_expectEnd_pure ts _

theorem fails_readValues (translate : Bool) :
    Fails ParseError.InLine (g.readValues translate ts) := by
  have hvalue (ts : List Token) : Fails ParseError.InLine (g.readValue translate ts) := by
    unfold readValue
    split
    · exact .pure _
    · exact .bind (Expr.fails_read _ _) fun _ => .pure _
  have hvalues (fuel : Nat) : ∀ ts : List Token,
      Fails ParseError.InLine (g.readValuesFrom translate fuel ts) := by
    induction fuel with
    | zero => exact fun ts => .error trivial
    | succ fuel ih =>
      intro ts
      unfold readValuesFrom
      refine .bind (hvalue ts) fun x => ?_
      obtain ⟨values, ts⟩ := x
      dsimp only
      split
      · exact .bind (ih _) fun _ => .pure _
      · exact fails_expectEnd_pure ts _
  exact hvalues _ ts

theorem fails_readPointerShape : Fails ParseError.InLine (readPointerShape ts) := by
  unfold readPointerShape
  split
  · exact .bind (fails_expectRegister _ _) fun ts =>
      .bind (Token.fails_expectMark _ _ ts) fun _ => .pure _
  · refine .bind (Token.fails_expectMark _ _ ts) fun ts => ?_
    split
    · exact .bind (fails_expectRegister _ _) fun _ => .pure _
    · exact .pure _

theorem fails_readMemoryShape : Fails ParseError.InLine (readMemoryShape ts) := by
  unfold readMemoryShape
  split
  · split
    · exact .pure _
    · split
      · exact .pure _
      · exact .error trivial
  · exact .pure _

theorem fails_readInstruction : Fails ParseError.InLine (g.readInstruction ts) := by
  have hmnemonic : Fails ParseError.InLine (g.readMnemonic ts) := by
    refine .bind (fails_readIdentifier ts _) fun ⟨_, _⟩ => ?_
    dsimp only
    split
    · exact .pure _
    · exact .error trivial
  refine .bind hmnemonic fun ⟨m, ts⟩ => ?_
  dsimp only
  split
  · exact .pure _
  · exact .pure _
  · exact .bind (Expr.fails_read _ _) fun ⟨_, ts⟩ => fails_expectEnd_pure ts _
  · exact .bind (Expr.fails_read _ _) fun ⟨_, ts⟩ =>
      .bind (fails_readPointerShape ts) fun ⟨_, ts⟩ => fails_expectEnd_pure ts _
  · exact .bind (Expr.fails_read _ _) fun ⟨_, ts⟩ =>
      .bind (fails_readMemoryShape ts) fun ⟨_, ts⟩ => fails_expectEnd_pure ts _

theorem fails_readInvoke : Fails ParseError.InLine (g.readInvoke ts) := by
  refine .bind (fails_readIdentifier ts _) fun ⟨_, ts⟩ => ?_
  dsimp only
  split
  · exact .pure _
  · exact .bind (g.fails_readValues ts _) fun _ => .pure _

theorem fails_readSegment (default : String) :
    Fails ParseError.InLine (readSegment default ts) := by
  unfold readSegment
  split
  · exact fails_expectEnd_pure _ _
  · exact fails_expectEnd_pure _ _

theorem fails_readAdvance : Fails ParseError.InLine (g.readAdvance ts) := by
  refine .bind (Expr.fails_read _ ts) fun ⟨_, ts⟩ => ?_
  dsimp only
  split
  · exact .bind (Expr.fails_read _ _) fun ⟨_, ts⟩ => fails_expectEnd_pure ts _
  · exact fails_expectEnd_pure ts _

theorem fails_readReserve : Fails ParseError.InLine (readReserve ts) := by
  refine .bind (fails_readIdentifier ts _) fun ⟨_, ts⟩ => ?_
  dsimp only
  split
  · exact .bind (Lexeme.fails_value _) fun _ => fails_expectEnd_pure _ _
  · exact .error trivial

theorem fails_readIncbin : Fails ParseError.InLine (g.readIncbin ts) := by
  refine .bind (fails_readString ts) fun ⟨_, ts⟩ => ?_
  dsimp only
  split
  · refine .bind (Expr.fails_read _ _) fun ⟨_, ts⟩ => ?_
    dsimp only
    split
    · exact .bind (Expr.fails_read _ _) fun ⟨_, ts⟩ => fails_expectEnd_pure ts _
    · exact fails_expectEnd_pure ts _
  · exact fails_expectEnd_pure ts _

theorem fails_readCharmap : Fails ParseError.InLine (g.readCharmap ts) := by
  unfold readCharmap
  split
  · exact .pure _
  · exact .bind (g.fails_readValues ts _) fun _ => .pure _

theorem fails_readDirective (name : String) :
    Fails ParseError.InLine (g.readDirective name ts) := by
  unfold readDirective
  split
  all_goals first
    | exact .error trivial
    | exact g.fails_readIncbin ts
    | exact g.fails_readCharmap ts
    | exact fails_readReserve ts
    | exact fails_expectEnd_pure ts _
    | exact .bind (fails_readFileName ts) fun _ => .pure _
    | exact .bind (g.fails_readInvoke ts) fun _ => .pure _
    | exact .bind (g.fails_readSingle ts) fun _ => .pure _
    | exact .bind (g.fails_readAdvance ts) fun _ => .pure _
    | exact .bind (fails_readSegment ts _) fun _ => .pure _
    | exact .bind (g.fails_readValues ts _) fun _ => .pure _
    | exact .bind (fails_readIdentifier ts _) fun ⟨_, ts⟩ =>
        .bind (g.fails_readSingle ts) fun _ => .pure _
    | exact .bind (fails_readIdentifier ts _) fun ⟨_, ts⟩ => fails_expectEnd_pure ts _

end Setting

/-- **A phrase that cannot be read** is at fault whatever files there are. -/
theorem fails_readPhrase (g : Setting) : Fails ParseError.InLine (readPhrase g ts) := by
  unfold readPhrase
  split
  · exact .pure _
  · exact .pure _
  · exact .bind (fails_readIdentifier _ _) fun ⟨name, ts⟩ => g.fails_readDirective ts name
  · exact .bind (g.fails_readInvoke _) fun _ => .pure _
  · exact .bind (g.fails_readInstruction ts) fun _ => .pure _

end Source

/-! ## What a phrase does -/

theorem Charmap.fails_replace? (m : Charmap) (base : Value) (values : List Value) :
    Fails ParseError.InLine (m.replace? base values) := by
  unfold replace?
  split
  · exact .error trivial
  · split
    · exact .error trivial
    · exact .pure _

namespace Reading

theorem fails_constantValue (e : Expr) : Fails ParseError.InLine (constantValue e) := by
  unfold constantValue
  split
  · split
    · exact .pure _
    · exact .error trivial
  · exact .error trivial

theorem fails_slice (bytes : List UInt8) (offset : Expr) (length : Option Expr) :
    Fails ParseError.InLine (slice bytes offset length) := by
  refine .bind (fails_constantValue offset) fun offset => .guard trivial (.guard trivial ?_)
  split
  · exact .pure _
  · refine .bind (fails_constantValue _) fun length => .guard trivial (.guard trivial ?_)
    exact .pure _

theorem fails_binaryItem (bytes : List UInt8) (offset : Expr) (length : Option Expr) :
    Fails ParseError.InLine (binaryItem bytes offset length) := by
  unfold binaryItem
  split
  · exact .bind (fails_slice bytes offset length) fun _ => .pure _
  · exact .pure _

/-- What a phrase does never fails because a file includes itself: where a file is included, that is
reported by the reading of the file. Nor does it fail for a fault inside a token. -/
theorem fails_perform (fs : FileSystem) (load : Loader) (directory : String) (location : Location)
    (r : Reading) (phrase : Source.Phrase) :
    Fails ParseError.OfPhrase (r.perform fs load directory location phrase) := by
  have hline {α : Type} {x : Except ParseError α} (h : Fails ParseError.InLine x) :
      Fails ParseError.OfPhrase x :=
    h.mono fun _ he => he.ofPhrase
  cases phrase with
  | nothing | item | reserve | «include» | charmapReset => exact .pure _
  | outfile name =>
    simp only [perform]
    split <;> exact .pure _
  | incbin name offset length =>
    simp only [perform]
    split
    · exact .error ⟨rfl, rfl⟩
    · exact .bind (hline (fails_binaryItem _ offset length)) fun _ => .pure _
  | charmapEntries values =>
    refine .bind (hline (.mapM fails_constantValue values)) fun values => ?_
    split
    · exact .error ⟨rfl, rfl⟩
    · exact .bind (hline (Charmap.fails_replace? _ _ _)) fun _ => .pure _
  | charmapFile name =>
    simp only [perform]
    split
    · exact .error ⟨rfl, rfl⟩
    · split
      · exact .error ⟨rfl, rfl⟩
      · exact .pure _

/-- **No line is at fault because a file includes itself** or because of a fault inside a token. -/
theorem fails_lineOutcome (fs : FileSystem) (load : Loader) (file directory : String) (r : Reading)
    (tokens : List Token) :
    Fails ParseError.OfPhrase (r.lineOutcome fs load file directory tokens) :=
  .bind ((Source.fails_readPhrase _ _).mono fun _ he => he.ofPhrase) fun phrase =>
    fails_perform fs load directory _ _ phrase

end Reading
end Assembler6502
