import Assembler6502.Proofs.LineByLine
import Assembler6502.Proofs.Readings
import Assembler6502.Proofs.References

/-!
# Anonymous labels

Anonymous labels are numbered in the order in which they stand in the program, over all sources and
the files that they include. As long as nothing is at fault no label is dropped, so where a line is
read, as many anonymous labels were counted as stand before its statements in the program. A run of
plus signs on the line therefore refers to the anonymous labels behind it, counted from the line on,
and a run of minus signs to those before it, counted back from the line.

## Main definitions

* `Item.anonymous?`, `anonymousAmong`: the anonymous labels of statements, in order
* `Consecutive`: statements whose anonymous labels are numbered in order
* `Reading.Continues`: reading that goes on with the numbers

## Main results

* `Consecutive.names_eq`: the names of the labels
* `Reading.continues_readLines`, `Reading.continuing_loadWithin`: lines and files
* `Source.consecutive_read`: all sources
* `Source.anonymous_labels_in_order`: what the labels are named, and what the signs refer to
-/

namespace Assembler6502

open Assembler6502.Expr (anonymousLabel)

/-! ## Numbers in order -/

/-- The anonymous label that an item defines. The names of anonymous labels start with a star. -/
def Item.anonymous? : Item → Option Symbol
  | .label (.global name) _ => if name.toList.head? = some '*' then some (.global name) else none
  | _ => none

/-- The anonymous labels of some statements, in order. -/
def anonymousAmong (leaves : List (Nat × Statement)) : List Symbol :=
  leaves.filterMap (·.2.item.anonymous?)

theorem Item.anonymous?_mark (index : Int) :
    (Item.mark (anonymousLabel index)).anonymous? = some (anonymousLabel index) := by
  simp [mark, anonymousLabel, anonymous?]

/-- Statements whose anonymous labels have the numbers behind the first one, up to the second one,
in order. Every other statement has a property that may depend on the number before it. -/
inductive Consecutive (Made : Nat → Statement → Prop) : Nat → List (Nat × Statement) → Nat → Prop
  | nil (n : Nat) : Consecutive Made n [] n
  | anonymous {n m id : Nat} {location : Location} {rest : List (Nat × Statement)}
      (h : Consecutive Made (n + 1) rest m) :
      Consecutive Made n ((id, ⟨location, .mark (anonymousLabel (n + 1 : Nat))⟩) :: rest) m
  | other {n m : Nat} {l : Nat × Statement} {rest : List (Nat × Statement)}
      (hl : l.2.item.anonymous? = none) (hmade : Made n l.2) (h : Consecutive Made n rest m) :
      Consecutive Made n (l :: rest) m

namespace Consecutive

variable {Made : Nat → Statement → Prop} {n m k : Nat} {first second : List (Nat × Statement)}

theorem append (h : Consecutive Made n first m) (h' : Consecutive Made m second k) :
    Consecutive Made n (first ++ second) k := by
  induction h with
  | nil n => exact h'
  | anonymous _ ih => exact .anonymous (ih h')
  | other hl hmade _ ih => exact .other hl hmade (ih h')

theorem split (h : Consecutive Made n (first ++ second) k) :
    ∃ m, Consecutive Made n first m ∧ Consecutive Made m second k := by
  induction first generalizing n with
  | nil => exact ⟨n, .nil n, h⟩
  | cons l first ih =>
    cases h with
    | anonymous h =>
      obtain ⟨m, hfirst, hsecond⟩ := ih h
      exact ⟨m, .anonymous hfirst, hsecond⟩
    | other hl hmade h =>
      obtain ⟨m, hfirst, hsecond⟩ := ih h
      exact ⟨m, .other hl hmade hfirst, hsecond⟩

/-- **The names of the labels** are those with the numbers behind the first one. -/
theorem names_eq (h : Consecutive Made n first m) : m = n + (anonymousAmong first).length ∧
    anonymousAmong first =
      (List.range (anonymousAmong first).length).map fun i => anonymousLabel (n + i + 1 : Nat) := by
  induction h with
  | nil n => exact ⟨rfl, rfl⟩
  | @anonymous n m id location rest _ ih =>
    obtain ⟨hcount, hnames⟩ := ih
    have hfirst : anonymousAmong ((id, ⟨location, .mark (anonymousLabel (n + 1 : Nat))⟩) :: rest) =
        anonymousLabel (n + 1 : Nat) :: anonymousAmong rest :=
      List.filterMap_cons_some (Item.anonymous?_mark _)
    rw [hfirst, List.length_cons, List.range_succ_eq_map, List.map_cons, List.map_map]
    refine ⟨by omega, congrArg (anonymousLabel (n + 1 : Nat) :: ·) (hnames.trans ?_)⟩
    refine List.map_congr_left fun i _ => ?_
    rw [Function.comp_apply, Nat.succ_eq_add_one, Nat.add_right_comm n 1 i]
    rfl
  | @other n m l rest hl _ _ ih =>
    have hnone : anonymousAmong (l :: rest) = anonymousAmong rest := List.filterMap_cons_none hl
    rwa [hnone]

theorem getElem?_names (h : Consecutive Made n first m) {k : Nat}
    (hk : k < (anonymousAmong first).length) :
    (anonymousAmong first)[k]? = some (anonymousLabel (n + k + 1 : Nat)) := by
  rw [h.names_eq.2, List.getElem?_map, List.getElem?_range hk, Option.map_some]

end Consecutive

/-! ## Where statements are from -/

namespace Source

/-- A text that is read under the name of a file, with the directory that its includes are relative
to: a text in memory, standard input, or a file. -/
inductive Provides (fs : FileSystem) (stdin : Except FileError (List UInt8))
    (inputs : List Input) : String → String → List Char → Prop
  | memory {name directory : String} {text : List Char} (h : .text name text directory ∈ inputs) :
      Provides fs stdin inputs name directory text
  | standardInput {text : List Char} (h : stdin >>= FileSystem.decode = .ok text) :
      Provides fs stdin inputs Reading.standardInput "" text
  | file {path : String} {text : List Char} (h : fs.read path >>= FileSystem.decode = .ok text) :
      Provides fs stdin inputs path (Path.parent path) text

/-- The items that a phrase becomes. An include becomes what the file says, and its statements stand
on the lines of the file. -/
inductive Phrase.Becomes (fs : FileSystem) (directory : String) : Phrase → Item → Prop
  | item (item : Item) : Becomes fs directory (.item item) item
  | label (symbol : Symbol) (size : Value) :
      Becomes fs directory (.reserve symbol size) (.mark symbol)
  | space (symbol : Symbol) (size : Value) :
      Becomes fs directory (.reserve symbol size) (.setPc (.pcPlus size))
  | part {name : String} {offset : Expr} {length : Option Expr} {bytes : List UInt8} {item : Item}
      (hfile : fs.read (Path.join directory name) = .ok bytes)
      (hitem : Reading.binaryItem bytes offset length = .ok item) :
      Becomes fs directory (.incbin name offset length) item

/-- The tokens of a line of the sources at a location. -/
def LineAt (fs : FileSystem) (stdin : Except FileError (List UInt8)) (inputs : List Input)
    (directory : String) (tokens : List Token) (location : Location) : Prop :=
  ∃ file text faults, Provides fs stdin inputs file directory text ∧ ⟨tokens, faults⟩ ∈ lines text ∧
    location = Reading.lineLocation file tokens

/-- What makes a statement: a label of its line, or the phrase of its line, which was read behind so
many anonymous labels. -/
inductive Stated (cpu : Cpu) (fs : FileSystem) (stdin : Except FileError (List UInt8))
    (inputs : List Input) (count : Nat) (st : Statement) : Prop
  | label {directory : String} {tokens : List Token} {before : Nat} {symbol : Symbol}
      (hline : LineAt fs stdin inputs directory tokens st.location)
      (hsymbol : symbol ∈ (takeLabels before tokens).1) (hitem : st.item = .mark symbol)
  | phrase {directory : String} {tokens rest : List Token} {before : Nat} {labels : List Symbol}
      {charmap : Charmap} {phrase : Phrase}
      (hline : LineAt fs stdin inputs directory tokens st.location)
      (hlabels : takeLabels before tokens = (labels, count, rest))
      (hphrase : readPhrase ⟨cpu, charmap, count⟩ rest = .ok phrase)
      (hitem : phrase.Becomes fs directory st.item)

/-! ## Names that are written -/

theorem anonymous?_ofText {name : String} (h : '*' ∉ name.toList) (value : Expr) :
    (Item.label (.ofText name) value).anonymous? = none := by
  unfold Symbol.ofText
  split
  · rfl
  · rw [Item.anonymous?, if_neg]
    intro hhead
    exact h (List.mem_of_mem_head? hhead)

theorem anonymous?_of_spelled {item : Item} (h : item.Spelled) : item.anonymous? = none := by
  cases item with
  | label symbol value =>
    obtain ⟨name, hname, rfl⟩ := h
    exact anonymous?_ofText hname value
  | _ => rfl

theorem Phrase.Becomes.anonymous? {fs : FileSystem} {directory : String} {phrase : Phrase}
    {item : Item} (h : phrase.Becomes fs directory item)
    (hphrase : phrase.Written Item.Spelled) : item.anonymous? = none := by
  refine anonymous?_of_spelled ?_
  cases h with
  | item => exact hphrase
  | label => exact hphrase
  | space => trivial
  | part _ hitem => exact (Reading.yields_binaryItem _ _ _ _ hitem).spelled

end Source

/-! ## Reading -/

section Lines

variable {Made : Nat → Statement → Prop} {n : Nat} {location : Location}

theorem Consecutive.ofItems {items : List Item}
    (h : ∀ item ∈ items, item.anonymous? = none ∧ Made n ⟨location, item⟩) (size : Nat) :
    Consecutive Made n
      (Node.leavesAll (Node.ofFragments size (items.map (.ofItem location))).1) n := by
  induction items generalizing size with
  | nil => exact .nil n
  | cons item rest ih =>
    obtain ⟨⟨hitem, hmade⟩, hrest⟩ := List.forall_mem_cons.mp h
    exact .other hitem hmade (ih hrest _)

/-- **The labels of a line go on with the numbers.** -/
theorem Consecutive.ofLabels {ts : List Token} (hts : Starless ts) (count : Nat)
    (h : ∀ n, ∀ symbol ∈ (Source.takeLabels count ts).1, Made n ⟨location, .mark symbol⟩)
    (size : Nat) :
    Consecutive Made count (Node.leavesAll (Node.ofFragments size
      (((Source.takeLabels count ts).1.map .mark).map (.ofItem location))).1)
      (Source.takeLabels count ts).2.1 := by
  -- A label with a name is not anonymous, and one without takes the next number.
  fun_induction Source.takeLabels count ts generalizing size with
  | case1 count name p q rest labels total rest' heq ih =>
    rw [heq] at ih
    obtain ⟨hfirst, hrest⟩ : (∀ n, Made n ⟨location, .mark (.ofText name)⟩) ∧
        ∀ n, ∀ symbol ∈ labels, Made n ⟨location, .mark symbol⟩ :=
      ⟨fun n => h n _ List.mem_cons_self, fun n symbol hs => h n symbol (List.mem_cons_of_mem _ hs)⟩
    have hname := hts _ List.mem_cons_self name rfl
    exact .other (Source.anonymous?_ofText hname _) (hfirst count) (ih hts.tail.tail hrest _)
  | case2 count p rest labels total rest' heq ih =>
    rw [heq] at ih
    exact .anonymous (ih hts.tail (fun n symbol hs => h n symbol (List.mem_cons_of_mem _ hs)) _)
  | case3 count ts => exact .nil count

end Lines

namespace Reading

section Continues

variable (cpu : Cpu) (fs : FileSystem) (stdin : Except FileError (List UInt8))
  (inputs : List Source.Input)

/-- The sources are read for a processor, and standard input is what it was, or it was read. -/
structure Within (r : Reading) : Prop where
  cpu : r.cpu = cpu
  input : r.input = stdin ∨ r.input = .ok []

/-- As long as nothing is at fault, the statements that are read go on with the numbers. -/
def Continues (r r' : Reading) (nodes : List Node) : Prop :=
  r.Within cpu stdin → r'.diagnostics.errors = [] →
    r'.Within cpu stdin ∧ Consecutive (Source.Stated cpu fs stdin inputs) r.anonymousLabels
      (Node.leavesAll nodes) r'.anonymousLabels

/-- Loading goes on with the numbers. -/
def Loader.Continuing (load : Loader) : Prop :=
  ∀ location directory name once r, Continues cpu fs stdin inputs r
    (load location directory name once r).1 (load location directory name once r).2.toList

end Continues

variable {cpu : Cpu} {fs : FileSystem} {stdin : Except FileError (List UInt8)}
  {inputs : List Source.Input} {r r' r'' : Reading} {nodes more : List Node} {load : Loader}

/-- What counting depends on. -/
def counting (r : Reading) : Cpu × Except FileError (List UInt8) × Nat :=
  (r.cpu, r.input, r.anonymousLabels)

theorem Adds.errors_eq_nil (h : Adds r r' nodes) (hr' : r'.diagnostics.errors = []) :
    r.diagnostics.errors = [] := by
  obtain ⟨added, hadded, -⟩ := h.faults
  rw [hr'] at hadded
  exact (List.append_eq_nil_iff.mp hadded.symm).1

namespace Continues

theorem of_eq (h : r'.counting = r.counting) : Continues cpu fs stdin inputs r r' [] := by
  simp only [counting, Prod.mk.injEq] at h
  obtain ⟨hcpu, hinput, hcount⟩ := h
  intro hr _
  refine ⟨⟨hcpu.trans hr.cpu, hinput ▸ hr.input⟩, ?_⟩
  rw [hcount]
  exact .nil _

/-- Nothing else matters before and after. -/
theorem of_same {s s' : Reading} (h : Continues cpu fs stdin inputs r r' nodes)
    (hs : s.counting = r.counting) (hs' : s'.counting = r'.counting)
    (hd : s'.diagnostics = r'.diagnostics) : Continues cpu fs stdin inputs s s' nodes := by
  simp only [counting, Prod.mk.injEq] at hs hs'
  obtain ⟨hcpu, hinput, hcount⟩ := hs
  obtain ⟨hcpu', hinput', hcount'⟩ := hs'
  intro hwithin herrors
  obtain ⟨hr', hnodes⟩ := h ⟨hcpu ▸ hwithin.cpu, hinput ▸ hwithin.input⟩ (hd ▸ herrors)
  refine ⟨⟨hcpu'.trans hr'.cpu, hinput' ▸ hr'.input⟩, ?_⟩
  rw [hcount, hcount']
  exact hnodes

theorem append (h : Continues cpu fs stdin inputs r r' nodes)
    (h' : Continues cpu fs stdin inputs r' r'' more) (hadds : Adds r' r'' more) :
    Continues cpu fs stdin inputs r r'' (nodes ++ more) := by
  intro hr hr''
  obtain ⟨hr', hnodes⟩ := h hr (hadds.errors_eq_nil hr'')
  obtain ⟨hwithin, hmore⟩ := h' hr' hr''
  refine ⟨hwithin, ?_⟩
  rw [Node.leavesAll_append]
  exact hnodes.append hmore

theorem error (location : Location) (e : ParseError) :
    Continues cpu fs stdin inputs r (r'.error location e) nodes := by
  intro _ herrors
  simp [Reading.error, Diagnostics.error] at herrors

theorem gather (h : Continues cpu fs stdin inputs r r' nodes) (location : Location) :
    Continues cpu fs stdin inputs r (r'.gather location nodes).1
      [(r'.gather location nodes).2] := by
  intro hr herrors
  obtain ⟨hwithin, hnodes⟩ := h hr herrors
  refine ⟨⟨hwithin.cpu, hwithin.input⟩, ?_⟩
  simpa [Reading.gather, Node.leavesAll, Node.leaves] using hnodes

end Continues

theorem continues_make {items : List Item} {location : Location}
    (h : ∀ item ∈ items, item.anonymous? = none ∧
      Source.Stated cpu fs stdin inputs r.anonymousLabels ⟨location, item⟩) :
    Continues cpu fs stdin inputs r (r.make location items).1 (r.make location items).2 :=
  fun hr _ => ⟨⟨hr.cpu, hr.input⟩, .ofItems h r.size⟩

/-- **What a phrase does** goes on with the numbers. -/
theorem continues_perform (hload : load.Continuing cpu fs stdin inputs) {directory : String}
    {location : Location} {phrase : Source.Phrase}
    (h : ∀ item, phrase.Becomes fs directory item → item.anonymous? = none ∧
      Source.Stated cpu fs stdin inputs r.anonymousLabels ⟨location, item⟩) :
    Yields (fun x => Continues cpu fs stdin inputs r x.1 x.2)
      (r.perform fs load directory location phrase) := by
  intro x hx
  cases performs_perform directory phrase x hx with
  | nothing | outfile | charmap => exact .of_eq rfl
  | item item => exact continues_make (List.forall_mem_singleton.mpr (h _ (.item item)))
  | reserve symbol size =>
    refine continues_make (List.forall_mem_cons.mpr ⟨h _ (.label symbol size), ?_⟩)
    exact List.forall_mem_singleton.mpr (h _ (.space symbol size))
  | part hfile hitem =>
    exact continues_make (List.forall_mem_singleton.mpr (h _ (.part hfile hitem)))
  | file name once => exact hload location directory name once r

/-- **A line goes on with the numbers**: its labels first, and then its phrase, which is read behind
them. -/
theorem continues_readStatements (hload : load.Continuing cpu fs stdin inputs)
    {file directory : String} {tokens : List Token} (htokens : Starless tokens)
    (hline : Source.LineAt fs stdin inputs directory tokens (lineLocation file tokens)) :
    Continues cpu fs stdin inputs r (r.readStatements fs load file directory tokens).1
      (r.readStatements fs load file directory tokens).2 := by
  have hrest := (Source.unhidden_takeLabels r.anonymousLabels htokens).2
  have hlabels : Consecutive (Source.Stated cpu fs stdin inputs) r.anonymousLabels
      (Node.leavesAll (r.readLabels file tokens).2) (r.readLabels file tokens).1.anonymousLabels :=
    .ofLabels htokens r.anonymousLabels (fun _ symbol hsymbol => .label hline hsymbol rfl) r.size
  rw [readStatements_eq_match]
  cases hout : r.lineOutcome fs load file directory tokens with
  | error e => exact .error _ e
  | ok x =>
    intro hr herrors
    -- The phrase is read for the processor of the reading, which is the one of the program.
    have hphrase : Yields (fun x => Continues cpu fs stdin inputs (r.readLabels file tokens).1 x.1
        x.2) (r.lineOutcome fs load file directory tokens) := by
      refine .bind_of (Q := fun phrase => phrase.Written Item.Spelled ∧
        Source.readPhrase ⟨cpu, r.charmap, (Source.takeLabels r.anonymousLabels tokens).2.1⟩
          (Source.takeLabels r.anonymousLabels tokens).2.2 = .ok phrase) ?_ ?_
      · intro phrase hread
        exact ⟨Source.spelled_readPhrase _ hrest phrase hread, hr.cpu ▸ hread⟩
      · rintro phrase ⟨hwritten, hread⟩
        refine continues_perform hload fun item hitem => ⟨hitem.anonymous? hwritten, ?_⟩
        exact .phrase hline rfl hread hitem
    obtain ⟨hwithin, hmore⟩ := hphrase x hout ⟨hr.cpu, hr.input⟩ herrors
    refine ⟨hwithin, ?_⟩
    rw [Node.leavesAll_append]
    exact hlabels.append hmore

theorem exists_reportFaults (file : String) (faults : List (Position × LexError)) (r : Reading) :
    ∃ diagnostics, r.reportFaults file faults = { r with diagnostics } := by
  induction faults generalizing r with
  | nil => exact ⟨_, rfl⟩
  | cons fault rest ih =>
    obtain ⟨diagnostics, hrest⟩ := ih (r.error (locate file fault.1) (.lexical fault.2))
    exact ⟨diagnostics, hrest⟩

theorem continues_reportFaults (file : String) (faults : List (Position × LexError)) :
    Continues cpu fs stdin inputs r (r.reportFaults file faults) [] := by
  obtain ⟨diagnostics, hreport⟩ := exists_reportFaults file faults r
  rw [hreport]
  exact .of_eq rfl

/-- **Lines go on with the numbers.** -/
theorem continues_readLines (hload : load.Continuing cpu fs stdin inputs) (hadding : load.Adding)
    {file directory : String} {lines : List Source.Line}
    (hlines : ∀ line ∈ lines, Starless line.tokens ∧
      Source.LineAt fs stdin inputs directory line.tokens (lineLocation file line.tokens)) :
    Continues cpu fs stdin inputs r (readLines fs load file directory r lines).1
      (readLines fs load file directory r lines).2 := by
  induction lines generalizing r with
  | nil => exact .of_eq rfl
  | cons line rest ih =>
    obtain ⟨⟨htokens, hline⟩, hrest⟩ := List.forall_mem_cons.mp hlines
    have hstatements := (continues_readStatements (r := r) hload htokens hline).append
      (continues_reportFaults file line.faults) (adds_reportFaults file line.faults _)
    rw [List.append_nil] at hstatements
    exact hstatements.append (ih hrest) (adds_readLines hadding file directory rest _)

/-- A text of the sources goes on with the numbers. -/
theorem continues_readText (hload : load.Continuing cpu fs stdin inputs) (hadding : load.Adding)
    {file directory : String} {text : List Char} (location : Location)
    (htext : Source.lines text ≠ [] → Source.Provides fs stdin inputs file directory text) :
    Continues cpu fs stdin inputs r (r.readText fs load file directory location text).1
      [(r.readText fs load file directory location text).2] := by
  rw [readText_eq]
  refine Continues.gather (continues_readLines hload hadding fun line hline => ⟨?_, ?_⟩) location
  · intro t ht
    obtain ⟨s, hs, rfl⟩ := Source.mem_of_mem_linesFrom hline ht
    exact Token.starless_scan text s hs
  · exact ⟨file, text, line.faults, htext (List.ne_nil_of_mem hline), hline, rfl⟩

/-- **A file goes on with the numbers**, with the files inside it. -/
theorem continuing_loadWithin (depth : Nat) :
    (loadWithin fs depth).Continuing cpu fs stdin inputs := by
  induction depth with
  | zero => exact fun location directory name once r => .of_eq rfl
  | succ depth ih =>
    have hadding := adds_loadWithin fs depth
    intro location directory name once r
    simp only [loadWithin, loadInside]
    split
    · rename_i hname
      subst hname
      split
      · exact .error location _
      · rename_i text htext
        intro hr herrors
        -- Standard input is read once and has no lines after that.
        refine continues_readText ih hadding location (fun hlines => ?_) ⟨hr.cpu, .inr rfl⟩ herrors
        rcases hr.input with hinput | hinput
        · exact .standardInput (hinput ▸ htext)
        · rw [hinput] at htext
          obtain rfl : [] = text := Except.ok.inj htext
          exact absurd rfl hlines
    · split
      · exact .of_eq rfl
      · split
        · exact .error location _
        · split
          · exact .error location _
          · rename_i text htext
            exact (continues_readText ih hadding location fun _ => .file htext).of_same rfl rfl rfl

end Reading

namespace Source

theorem continues_readAll {cpu : Cpu} {fs : FileSystem} {stdin : Except FileError (List UInt8)}
    {inputs rest : List Input} (h : rest ⊆ inputs) (r : Reading) :
    Reading.Continues cpu fs stdin inputs r (readAll fs r rest).1 (readAll fs r rest).2 := by
  have hload : (Reading.load fs).Continuing cpu fs stdin inputs := Reading.continuing_loadWithin _
  have hadding : (Reading.load fs).Adding := Reading.adds_loadWithin fs _
  induction rest generalizing r with
  | nil => exact .of_eq rfl
  | cons input rest ih =>
    refine Reading.Continues.append ?_ (ih (fun _ hi => h (List.mem_cons_of_mem _ hi)) _)
      (adds_readAll fs rest _)
    cases input with
    | text name contents directory =>
      exact Reading.continues_readText hload hadding _ fun _ => .memory (h List.mem_cons_self)
    | file path => exact hload _ _ _ _ r

/-- **The statements of a program that was read without a fault** are numbered in order. -/
theorem consecutive_read {cpu : Cpu} {fs : FileSystem} {stdin : Except FileError (List UInt8)}
    {inputs : List Input} (h : (read cpu fs stdin inputs).diagnostics.errors = []) :
    ∃ m, Consecutive (Stated cpu fs stdin inputs) 0 (read cpu fs stdin inputs).program.leaves m :=
  ⟨_, (continues_readAll (List.Subset.refl inputs) { cpu, input := stdin } ⟨rfl, .inl rfl⟩ h).2⟩

/-- **Anonymous labels count in program order.** In a program that is read without a fault they are
named by the numbers from one on, in the order of its statements. Any other statement, with `n`
anonymous labels before it, is a label or was read from its line behind `n` anonymous labels, and
what is read behind `n` anonymous labels is what its tokens say anywhere once the references are
spelled out: `k` plus signs as the label with number `n + k`, and `k` minus signs as the one with
number `n + 1 - k`. These are the `k`-th anonymous labels behind and before the statement. -/
theorem anonymous_labels_in_order (cpu : Cpu) (fs : FileSystem)
    (stdin : Except FileError (List UInt8)) (inputs : List Input)
    (h : (read cpu fs stdin inputs).diagnostics.hasErrors = false) :
    let leaves := (read cpu fs stdin inputs).program.leaves
    anonymousAmong leaves =
        (List.range (anonymousAmong leaves).length).map (fun i : Nat => anonymousLabel (i + 1)) ∧
      ∀ before l after, leaves = before ++ l :: after → l.2.item.anonymous? = none →
        let n := (anonymousAmong before).length
        Stated cpu fs stdin inputs n l.2 ∧
          (∀ charmap ts phrase m, readPhrase ⟨cpu, charmap, n⟩ ts = .ok phrase →
            readPhrase ⟨cpu, charmap, m⟩ (spelledPhrase n ts) = .ok phrase) ∧
          (∀ k < (anonymousAmong after).length,
            (anonymousAmong after)[k]? = some (anonymousLabel (n + (k + 1)))) ∧
          ∀ k < n,
            (anonymousAmong before).reverse[k]? = some (anonymousLabel (n + 1 - (k + 1))) := by
  intro leaves
  have herrors : (read cpu fs stdin inputs).diagnostics.errors = [] := by
    simpa [Diagnostics.hasErrors] using h
  obtain ⟨m, hleaves⟩ := consecutive_read herrors
  refine ⟨?_, fun before l after hsplit hl => ?_⟩
  · refine hleaves.names_eq.2.trans (List.map_congr_left fun i _ => ?_)
    simp
  · change Consecutive _ 0 leaves m at hleaves
    rw [hsplit] at hleaves
    obtain ⟨count, hbefore, hrest⟩ := hleaves.split
    obtain rfl : count = (anonymousAmong before).length := by
      rw [hbefore.names_eq.1, Nat.zero_add]
    cases hrest with
    | anonymous => simp [Item.anonymous?_mark] at hl
    | other _ hstated hafter =>
      refine ⟨hstated, fun charmap ts phrase m hread => readPhrase_spelledPhrase hread m,
        fun k hk => ?_, fun k hk => ?_⟩
      · rw [hafter.getElem?_names hk]
        exact congrArg (some ∘ anonymousLabel) (by omega)
      · rw [List.getElem?_reverse hk, hbefore.getElem?_names (by omega)]
        exact congrArg (some ∘ anonymousLabel) (by omega)

/-- A file with an anonymous label. -/
def oneLabel : FileSystem where
  canonical? path := if path = "a" then some "/a" else none
  read path := if path = "a" then .ok "*\n".toUTF8.data.toList else .error .notFound
  files := ["/a"]
  canonical_mem path bytes h := by
    split at h
    · exact ⟨"/a", List.mem_singleton_self _, by simp [*]⟩
    · cases h

/-- Behind an included file, two labels back, an operator, and two labels ahead. -/
def aroundInclude : List Input :=
  [.text "main" "* nop\n.include \"a\"\n.word --+++\n* * nop\n".toList ""]

/-- The label of the file is the second one. Two labels back from the line behind it is the first
label, and two ahead is the fourth. -/
theorem anonymous_labels_in_order_aroundInclude :
    let outcome := read .mos6502 oneLabel (.ok []) aroundInclude
    outcome.diagnostics.hasErrors = false ∧
      anonymousAmong outcome.program.leaves = [1, 2, 3, 4].map anonymousLabel ∧
      ∃ before l after, outcome.program.leaves = before ++ l :: after ∧
        l.2.item.expressions.map Expr.text = ["[*1 + *4]"] ∧
        Stated .mos6502 oneLabel (.ok []) aroundInclude 2 l.2 ∧
        (anonymousAmong before).reverse[1]? = some (anonymousLabel 1) ∧
        (anonymousAmong after)[1]? = some (anonymousLabel 4) := by
  intro outcome
  have hclean : outcome.diagnostics.hasErrors = false := by decide +kernel
  obtain ⟨hnames, hall⟩ :=
    anonymous_labels_in_order .mos6502 oneLabel (.ok []) aroundInclude hclean
  have hcount : (anonymousAmong outcome.program.leaves).length = 4 := by decide +kernel
  have hword : outcome.program.leaves[3]?.map (fun l =>
      (l.2.item.anonymous?, l.2.item.expressions.map Expr.text)) = some (none, ["[*1 + *4]"]) := by
    decide +kernel
  obtain ⟨l, hl, hitem⟩ := Option.map_eq_some_iff.mp hword
  obtain ⟨hnone, htext⟩ := Prod.mk.inj hitem
  have hsplit : outcome.program.leaves =
      outcome.program.leaves.take 3 ++ l :: outcome.program.leaves.drop 4 := by
    obtain ⟨hlength, rfl⟩ := List.getElem?_eq_some_iff.mp hl
    rw [← List.drop_eq_getElem_cons hlength, List.take_append_drop]
  obtain ⟨hstated, -, hafter, hbefore⟩ := hall _ l _ hsplit hnone
  have hsizes : (anonymousAmong (outcome.program.leaves.take 3)).length = 2 ∧
      (anonymousAmong (outcome.program.leaves.drop 4)).length = 2 := by
    decide +kernel
  rw [hsizes.1] at hstated hafter hbefore
  rw [hsizes.2] at hafter
  refine ⟨hclean, ?_, _, l, _, hsplit, htext, hstated, ?_, ?_⟩
  · rw [hnames, hcount]
    rfl
  · exact hbefore 1 (by decide)
  · exact hafter 1 (by decide)

end Source

end Assembler6502
