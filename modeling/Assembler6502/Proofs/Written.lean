import Assembler6502.Proofs.Faithfulness
import Assembler6502.Proofs.History
import Assembler6502.Proofs.LineReading

/-!
# Programs as they are written

What is read from a line is made of the tokens of the line, so a property of the items that lines
make is a property of all items of a program that was read, whatever files it was read from. One
such property is about branches. Reading the sources never makes one: an operand is written in a
shape that leaves its mode open, or behind a hash mark, and an instruction without an operand is
implied. So every instruction of a program that was read is extensible.

## Main definitions

* `Yields`: every result of a computation has a property
* `Node.Written`, `Fragment.Plain`: trees and fragments of statements whose items have a property
* `Item.Neutral`: an item that is no instruction, defines no label and calls no macro
* `Source.Makes`: what is read from tokens with a property makes items with a property
* `Reading.Performs`: what a phrase can do

## Main results

* `Reading.performs_perform`: what a phrase does, from which everything else about it follows
* `Source.Makes.written_read`: every program that was read is made of such items
* `Source.written_read`: every program that was read holds no branch that can not be replaced
-/

namespace Assembler6502

/-! ## Computations -/

/-- Every result of a computation has a property. -/
def Yields {ε α : Type} (P : α → Prop) (x : Except ε α) : Prop :=
  ∀ a, x = .ok a → P a

namespace Yields

variable {ε α β : Type} {P : β → Prop} {x : Except ε α} {f : α → Except ε β}

theorem pure {b : β} (h : P b) : Yields P (Pure.pure b : Except ε β) := by
  rintro a ⟨⟩
  exact h

theorem error (err : ε) : Yields P (.error err : Except ε β) := by
  rintro a ⟨⟩

theorem bind_of {Q : α → Prop} (hx : Yields Q x) (h : ∀ a, Q a → Yields P (f a)) :
    Yields P (x >>= f) := by
  intro b hb
  obtain ⟨a, ha, hfa⟩ := bind_eq_ok.mp hb
  exact h a (hx a ha) b hfa

theorem bind (h : ∀ a, Yields P (f a)) : Yields P (x >>= f) :=
  bind_of (Q := fun _ => True) (fun _ _ => trivial) fun a _ => h a

end Yields

/-! ## Trees -/

/-- Every item of a tree has a property. -/
def Node.Written (P : Item → Prop) (n : Node) : Prop :=
  ∀ l ∈ n.leaves, P l.2.item

/-- A statement whose item has a property. -/
def Fragment.Plain (P : Item → Prop) (part : Fragment) : Prop :=
  ∃ st : Statement, part = .statement st ∧ P st.item

section Trees

variable {P : Item → Prop}

namespace Node

theorem mem_leavesAll {l : Nat × Statement} {ns : List Node} :
    l ∈ leavesAll ns ↔ ∃ n ∈ ns, l ∈ n.leaves := by
  induction ns with
  | nil => simp [leavesAll]
  | cons n rest ih => simp [leavesAll, ih]

theorem written_leaf {id : Nat} {st : Statement} (h : P st.item) : (leaf id st).Written P := by
  intro l hl
  rw [List.mem_singleton.mp hl]
  exact h

theorem written_sequence {id : Nat} {location : Location} {ns : List Node}
    (h : ∀ n ∈ ns, n.Written P) : (sequence id location ns).Written P := by
  intro l hl
  rw [leaves] at hl
  obtain ⟨n, hn, hl⟩ := mem_leavesAll.mp hl
  exact h n hn l hl

theorem written_ofFragments {parts : List Fragment} (h : ∀ part ∈ parts, part.Plain P)
    (size : Nat) : ∀ n ∈ (ofFragments size parts).1, n.Written P := by
  induction parts generalizing size with
  | nil => simp [ofFragments]
  | cons part rest ih =>
    obtain ⟨⟨st, rfl, hst⟩, hrest⟩ := List.forall_mem_cons.mp h
    intro n hn
    simp only [ofFragments, ofFragment] at hn
    rcases List.mem_cons.mp hn with rfl | hn
    · exact written_leaf hst
    · exact ih hrest _ n hn

end Node

theorem Fragment.plain_ofItem {location : Location} {items : List Item}
    (h : ∀ item ∈ items, P item) : ∀ part ∈ items.map (Fragment.ofItem location), part.Plain P := by
  intro part hpart
  obtain ⟨item, hitem, rfl⟩ := List.mem_map.mp hpart
  exact ⟨⟨location, item⟩, rfl, h item hitem⟩

end Trees

/-! ## Reading -/

/-- The item is no instruction, defines no label and calls no macro. -/
def Item.Neutral : Item → Prop
  | .instruction _ | .label _ _ | .invoke _ _ => False
  | _ => True

/-- The items of a phrase have a property, neutral ones apart. -/
def Source.Phrase.Written (P : Item → Prop) : Phrase → Prop
  | .item step => P step
  | .reserve symbol _ => P (.mark symbol)
  | _ => True

theorem Source.Phrase.Written.imp {P Q : Item → Prop} {phrase : Phrase} (h : phrase.Written P)
    (hPQ : ∀ item, P item → Q item) : phrase.Written Q := by
  cases phrase <;> first | exact hPQ _ h | trivial

/-- The phrase changes the map of characters. -/
inductive Source.Phrase.EditsMap : Phrase → Prop
  | reset : EditsMap .charmapReset
  | entries (values : List Expr) : EditsMap (.charmapEntries values)
  | file (name : String) : EditsMap (.charmapFile name)

/-- All tokens have one property, and what is read from such tokens makes items with another one. -/
structure Source.Makes (T : Token → Prop) (P : Item → Prop) : Prop where
  neutral : ∀ item : Item, item.Neutral → P item
  scanned : ∀ text, ∀ s ∈ Token.scan text, T s.token
  labels : ∀ count ts, (∀ t ∈ ts, T t) → (∀ symbol ∈ (takeLabels count ts).1, P (.mark symbol)) ∧
    ∀ t ∈ (takeLabels count ts).2.2, T t
  phrase : ∀ g ts, (∀ t ∈ ts, T t) → Yields (Phrase.Written P) (readPhrase g ts)

namespace Reading

/-- Whatever is loaded is made of items with a property. -/
def Loader.Written (P : Item → Prop) (load : Loader) : Prop :=
  ∀ location directory name once r, ∀ n ∈ (load location directory name once r).2, n.Written P

variable {T : Token → Prop} {P : Item → Prop} {fs : FileSystem} {load : Loader} {r : Reading}
  {location : Location}

theorem written_make {items : List Item} (h : ∀ item ∈ items, P item) :
    ∀ n ∈ (r.make location items).2, n.Written P :=
  Node.written_ofFragments (Fragment.plain_ofItem h) r.size

theorem yields_binaryItem (bytes : List UInt8) (offset : Expr) (length : Option Expr) :
    Yields Item.Neutral (binaryItem bytes offset length) := by
  unfold binaryItem
  split
  · exact .bind fun _ => .pure trivial
  · exact .pure trivial

/-- What a phrase can do: it makes statements, has a file read, or changes what is known of the
output file or of the map of characters. -/
inductive Performs (fs : FileSystem) (load : Loader) (directory : String) (location : Location)
    (r : Reading) : Source.Phrase → Reading × List Node → Prop
  | nothing : Performs fs load directory location r .nothing (r, [])
  | item (item : Item) :
      Performs fs load directory location r (.item item) (r.make location [item])
  | reserve (symbol : Symbol) (size : Value) :
      Performs fs load directory location r (.reserve symbol size)
        (r.make location [.mark symbol, .setPc (.pcPlus size)])
  | part {name : String} {offset : Expr} {length : Option Expr} {bytes : List UInt8} {item : Item}
      (hfile : fs.read (Path.join directory name) = .ok bytes)
      (hitem : binaryItem bytes offset length = .ok item) :
      Performs fs load directory location r (.incbin name offset length) (r.make location [item])
  | file (name : String) (once : Bool) :
      Performs fs load directory location r (.include name once)
        ((load location directory name once r).1, (load location directory name once r).2.toList)
  | outfile (name : String) (outfile : Option String) (ignored : List String) :
      Performs fs load directory location r (.outfile name)
        ({ r with outfile := outfile, ignoredOutfiles := ignored }, [])
  | charmap {phrase : Source.Phrase} (hedits : phrase.EditsMap) (charmap : Charmap) :
      Performs fs load directory location r phrase ({ r with charmap := charmap }, [])

/-- **What a phrase does** is one of the things that it can do. -/
theorem performs_perform (directory : String) (phrase : Source.Phrase) :
    Yields (Performs fs load directory location r phrase)
      (r.perform fs load directory location phrase) := by
  cases phrase with
  | nothing => exact .pure .nothing
  | item item => exact .pure (.item item)
  | reserve symbol size => exact .pure (.reserve symbol size)
  | outfile name =>
    simp only [perform]
    split
    · exact .pure (.outfile name (some name) r.ignoredOutfiles)
    · exact .pure (.outfile name r.outfile _)
  | «include» name once => exact .pure (.file name once)
  | incbin name offset length =>
    simp only [perform]
    split
    · exact .error _
    · rename_i bytes hfile
      refine .bind_of (Q := fun item => binaryItem bytes offset length = .ok item)
        (fun _ hitem => hitem) fun item hitem => ?_
      exact .pure (.part hfile hitem)
  | charmapReset => exact .pure (.charmap .reset _)
  | charmapEntries values =>
    simp only [perform]
    refine .bind fun values => ?_
    split
    · exact .error _
    · exact .bind fun charmap => .pure (.charmap (.entries _) charmap)
  | charmapFile name =>
    simp only [perform]
    split
    · exact .error _
    · split
      · exact .error _
      · exact .pure (.charmap (.file name) _)

/-- The nodes that a phrase makes. -/
theorem yields_perform (hm : Source.Makes T P) (hload : load.Written P) {directory : String}
    {phrase : Source.Phrase} (hphrase : phrase.Written P) :
    Yields (fun x => ∀ n ∈ x.2, n.Written P) (r.perform fs load directory location phrase) := by
  intro x hx
  cases performs_perform directory phrase x hx with
  | nothing | outfile | charmap => simp
  | item item => exact written_make (List.forall_mem_singleton.mpr hphrase)
  | reserve symbol size =>
    refine written_make (List.forall_mem_cons.mpr ⟨hphrase, ?_⟩)
    exact List.forall_mem_singleton.mpr (hm.neutral _ trivial)
  | @part _ offset length bytes item hfile hitem =>
    have hneutral : item.Neutral := yields_binaryItem bytes offset length item hitem
    exact written_make (List.forall_mem_singleton.mpr (hm.neutral item hneutral))
  | file name once =>
    intro n hn
    exact hload location directory name once r n (by simpa using hn)

/-- The nodes of a line. -/
theorem written_readStatements (hm : Source.Makes T P) (hload : load.Written P)
    (file directory : String) {tokens : List Token} (htokens : ∀ t ∈ tokens, T t) :
    ∀ n ∈ (r.readStatements fs load file directory tokens).2, n.Written P := by
  obtain ⟨hlabels, hrest⟩ := hm.labels r.anonymousLabels tokens htokens
  intro n hn
  simp only [readStatements] at hn
  split at hn
  · rename_i r' nodes houtcome
    rcases List.mem_append.mp hn with hn | hn
    · refine written_make (fun item hitem => ?_) n hn
      obtain ⟨symbol, hsymbol, rfl⟩ := List.mem_map.mp hitem
      exact hlabels symbol hsymbol
    · exact Yields.bind_of (hm.phrase _ _ hrest)
        (fun phrase hphrase => yields_perform hm hload hphrase) _ houtcome n hn
  · cases hn

theorem written_readLines (hm : Source.Makes T P) (hload : load.Written P)
    (file directory : String) {lines : List Source.Line}
    (hlines : ∀ line ∈ lines, ∀ t ∈ line.tokens, T t) :
    ∀ n ∈ (readLines fs load file directory r lines).2, n.Written P := by
  induction lines generalizing r with
  | nil => simp [readLines]
  | cons line rest ih =>
    obtain ⟨hline, hrest⟩ := List.forall_mem_cons.mp hlines
    intro n hn
    simp only [readLines] at hn
    rcases List.mem_append.mp hn with hn | hn
    · exact written_readStatements hm hload file directory hline n hn
    · exact ih hrest n hn

end Reading

namespace Source

theorem mem_splitLine {s : Scanned} {ss : List Scanned} :
    s ∈ (splitLine ss).1 ∨ s ∈ (splitLine ss).2 → s ∈ ss := by
  induction ss with
  | nil => simp [splitLine]
  | cons first rest ih =>
    simp only [splitLine]
    split
    · simp
    · rintro (hs | hs)
      · rcases List.mem_cons.mp hs with rfl | hs
        · exact List.mem_cons_self
        · exact List.mem_cons_of_mem _ (ih (.inl hs))
      · exact List.mem_cons_of_mem _ (ih (.inr hs))

/-- The tokens of a line are tokens of the text. -/
theorem mem_of_mem_linesFrom {known fuel : Nat} {ss : List Scanned} {line : Line}
    (hline : line ∈ linesFrom known fuel ss) {t : Token} (ht : t ∈ line.tokens) :
    ∃ s ∈ ss, s.token = t := by
  induction fuel generalizing known ss with
  | zero => cases hline
  | succ fuel ih =>
    unfold linesFrom at hline
    split at hline
    · cases hline
    · split at hline
      · cases hline
      · rcases List.mem_cons.mp hline with rfl | hline
        · obtain ⟨s, hs, rfl⟩ := List.mem_map.mp ht
          exact ⟨s, mem_splitLine (.inl hs), rfl⟩
        · obtain ⟨s, hs, rfl⟩ := ih hline
          exact ⟨s, mem_splitLine (.inr hs), rfl⟩

end Source

namespace Reading

variable {T : Token → Prop} {P : Item → Prop} {fs : FileSystem} {load : Loader} {r : Reading}
  {location : Location}

theorem written_readText (hm : Source.Makes T P) (hload : load.Written P) (file directory : String)
    (text : List Char) : (r.readText fs load file directory location text).2.Written P := by
  rw [readText_eq]
  refine Node.written_sequence (written_readLines hm hload file directory fun line hline t ht => ?_)
  obtain ⟨s, hs, rfl⟩ := Source.mem_of_mem_linesFrom hline ht
  exact hm.scanned text s hs

/-- A file is made of items with a property if the files inside it are. -/
theorem written_loadWithin (hm : Source.Makes T P) (fs : FileSystem) (depth : Nat) :
    (loadWithin fs depth).Written P := by
  induction depth with
  | zero =>
    intro location directory name once r n hn
    cases hn
  | succ depth ih =>
    intro location directory name once r n hn
    simp only [loadWithin, loadInside] at hn
    -- There is a node only where a text was read, from standard input or from a file.
    split at hn
    · split at hn
      · cases hn
      · obtain rfl := Option.some.inj hn
        exact written_readText hm ih _ _ _
    · split at hn
      · cases hn
      · split at hn
        · cases hn
        · split at hn
          · cases hn
          · obtain rfl := Option.some.inj hn
            exact written_readText hm ih _ _ _

end Reading

namespace Source.Makes

variable {T : Token → Prop} {P : Item → Prop}

theorem written_readAll (hm : Makes T P) (fs : FileSystem) (r : Reading) (inputs : List Input) :
    ∀ n ∈ (readAll fs r inputs).2, n.Written P := by
  have hload : Reading.Loader.Written P (Reading.load fs) := Reading.written_loadWithin hm fs _
  induction inputs generalizing r with
  | nil => simp [readAll]
  | cons input rest ih =>
    intro n hn
    simp only [readAll] at hn
    rcases List.mem_append.mp hn with hn | hn
    · cases input with
      | text name contents directory =>
        have htext : n = (r.readText fs (Reading.load fs) name directory .topLevel contents).2 := by
          simpa [Input.read] using hn
        rw [htext]
        exact Reading.written_readText hm hload _ _ _
      | file path => exact hload _ _ _ _ r n (by simpa [Input.read] using hn)
    · exact ih _ n hn

/-- **A program that was read** is made of the items that its lines make. -/
theorem written_read (hm : Makes T P) (cpu : Cpu) (fs : FileSystem)
    (stdin : Except FileError (List UInt8)) (inputs : List Input) :
    ∀ l ∈ (read cpu fs stdin inputs).program.leaves, P l.2.item :=
  Node.written_sequence (hm.written_readAll fs _ inputs)

end Source.Makes

/-! ## Directives -/

namespace Source.Setting

variable {P : Item → Prop} (g : Setting) (ts : List Token)

theorem yields_readAdvance : Yields Item.Neutral (g.readAdvance ts) := by
  unfold readAdvance
  refine .bind fun ⟨target, ts⟩ => ?_
  dsimp only
  split
  · exact .bind fun ⟨_, _⟩ => .bind fun _ => .pure trivial
  · exact .bind fun _ => .pure trivial

theorem yields_readIncbin : Yields (Phrase.Written P) (g.readIncbin ts) := by
  unfold readIncbin
  refine .bind fun ⟨name, ts⟩ => ?_
  dsimp only
  split
  · refine .bind fun ⟨offset, ts⟩ => ?_
    dsimp only
    split
    · exact .bind fun ⟨_, _⟩ => .bind fun _ => .pure trivial
    · exact .bind fun _ => .pure trivial
  · exact .bind fun _ => .pure trivial

theorem yields_readCharmap : Yields (Phrase.Written P) (g.readCharmap ts) := by
  unfold readCharmap
  split
  · exact .pure trivial
  · exact .bind fun _ => .pure trivial

/-- A directive makes neutral items, unless it calls a macro or defines a label. -/
theorem yields_readDirective (name : String) (hneutral : ∀ item : Item, item.Neutral → P item)
    (hinvoke : Yields P (g.readInvoke ts)) (hreserve : Yields (Phrase.Written P) (readReserve ts))
    (halias : Yields (Phrase.Written P) (do
      let (name, ts) ← readIdentifier "label" ts
      return .item (.label (Symbol.ofText name) (← g.readSingle ts)))) :
    Yields (Phrase.Written P) (g.readDirective name ts) := by
  have hcall : Yields (Phrase.Written P) (do return .item (← g.readInvoke ts)) :=
    .bind_of hinvoke fun _ h => .pure h
  have hadvance : Yields (Phrase.Written P) (do return .item (← g.readAdvance ts)) :=
    .bind_of (g.yields_readAdvance ts) fun item h => .pure (hneutral item h)
  unfold readDirective
  split
  all_goals first
    | exact .error _
    | exact g.yields_readIncbin ts
    | exact g.yields_readCharmap ts
    | exact hreserve
    | exact hcall
    | exact halias
    | exact hadvance
    | exact .bind fun _ => .pure trivial
    | exact .bind fun _ => .pure (hneutral _ trivial)
    | exact .bind fun ⟨_, _⟩ => .bind fun _ => .pure (hneutral _ trivial)

end Source.Setting

/-! ## Instructions -/

/-- An instruction with a property, or something else. -/
def Item.Coded (Q : Instruction → Prop) : Item → Prop
  | .instruction i => Q i
  | _ => True

theorem Item.Neutral.coded {Q : Instruction → Prop} {item : Item} (h : item.Neutral) :
    item.Coded Q := by
  cases item <;> trivial

/-- An instruction that is extensible, or something else. -/
def Item.Extensible : Item → Prop
  | .instruction i => i.Extensible
  | _ => True

theorem Item.extensible_eq : Item.Extensible = Item.Coded Instruction.Extensible := by
  funext item
  cases item <;> rfl

namespace Source

namespace Setting

variable {Q : Instruction → Prop} (g : Setting) (ts : List Token)

theorem immediateMode_ne_relative (m : Mnemonic) : g.immediateMode m ≠ .relative := by
  unfold immediateMode
  split <;> decide

/-- An instruction that is read is no branch yet. -/
theorem yields_readInstruction : Yields Instruction.Extensible (g.readInstruction ts) := by
  unfold readInstruction
  refine .bind fun ⟨m, ts⟩ => ?_
  dsimp only
  split
  · exact .pure (Instruction.extensible_resolved (by decide))
  · exact .pure (Instruction.extensible_resolved (by decide))
  · refine .bind fun ⟨e, ts⟩ => .bind fun _ => .pure ?_
    exact Instruction.extensible_resolved (g.immediateMode_ne_relative m)
  · refine .bind fun ⟨e, ts⟩ => .bind fun ⟨shape, ts⟩ => .bind fun _ => .pure ?_
    exact Instruction.extensible_pending m shape e
  · refine .bind fun ⟨e, ts⟩ => .bind fun ⟨shape, ts⟩ => .bind fun _ => .pure ?_
    exact Instruction.extensible_pending m shape e

/-- An instruction that is read has an operand, or is implied. -/
theorem whole_readInstruction : Yields Instruction.Whole (g.readInstruction ts) := by
  unfold readInstruction
  refine .bind fun ⟨m, ts⟩ => ?_
  dsimp only
  split
  · exact .pure (.inr rfl)
  · exact .pure (.inr rfl)
  · exact .bind fun ⟨e, ts⟩ => .bind fun _ => .pure (.inl rfl)
  · exact .bind fun ⟨e, ts⟩ => .bind fun ⟨shape, ts⟩ => .bind fun _ => .pure (.inl rfl)
  · exact .bind fun ⟨e, ts⟩ => .bind fun ⟨shape, ts⟩ => .bind fun _ => .pure (.inl rfl)

theorem yields_readInvoke : Yields (Item.Coded Q) (g.readInvoke ts) := by
  unfold readInvoke
  refine .bind fun ⟨name, ts⟩ => ?_
  dsimp only
  split
  · exact .pure trivial
  · exact .bind fun _ => .pure trivial

theorem yields_readReserve : Yields (Phrase.Written (Item.Coded Q)) (readReserve ts) := by
  unfold readReserve
  refine .bind fun ⟨name, ts⟩ => ?_
  dsimp only
  split
  · exact .bind fun _ => .bind fun _ => .pure trivial
  · exact .error _

end Setting

variable {Q : Instruction → Prop}

/-- What a line says behind its labels holds instructions as they are read. -/
theorem yields_readPhrase (hQ : ∀ (g : Setting) ts, Yields Q (g.readInstruction ts)) (g : Setting)
    (ts : List Token) : Yields (Phrase.Written (Item.Coded Q)) (readPhrase g ts) := by
  unfold readPhrase
  split
  · exact .pure trivial
  · exact .pure trivial
  · refine .bind fun ⟨name, ts⟩ => ?_
    exact g.yields_readDirective ts name (fun _ h => h.coded) (g.yields_readInvoke ts)
      (Setting.yields_readReserve ts) (.bind fun ⟨_, _⟩ => .bind fun _ => .pure trivial)
  · exact .bind_of (g.yields_readInvoke _) fun _ h => .pure h
  · exact .bind_of (hQ g ts) fun _ h => .pure h

theorem makes_coded (hQ : ∀ (g : Setting) ts, Yields Q (g.readInstruction ts)) :
    Makes (fun _ => True) (Item.Coded Q) where
  neutral _ h := h.coded
  scanned _ _ _ := trivial
  labels _ _ _ := ⟨fun _ _ => trivial, fun _ _ => trivial⟩
  phrase g ts _ := yields_readPhrase hQ g ts

/-- **A program that was read** holds no branch that can not be replaced. -/
theorem written_read (cpu : Cpu) (fs : FileSystem) (stdin : Except FileError (List UInt8))
    (inputs : List Input) :
    ∀ l ∈ (read cpu fs stdin inputs).program.leaves, l.2.item.Extensible := by
  rw [Item.extensible_eq]
  exact (makes_coded Setting.yields_readInstruction).written_read cpu fs stdin inputs

end Source
end Assembler6502
