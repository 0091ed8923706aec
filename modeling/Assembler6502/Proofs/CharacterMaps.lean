import Assembler6502.Proofs.Inclusion
import Assembler6502.Proofs.StringLiterals

/-!
# Editing the character map

Two directives edit the character map. One of them puts new entries into it, or takes it back to
where every byte stands for itself; the other one takes a whole map from a file. An edit is made in
full or not at all. It is refused exactly if it cannot be made out, if an entry is not a byte, or if
the entries do not fit; then the line has a fault, and the map is what it was. So there is an entry
for every byte behind every line.

A fault inside a token does not stop its line. A string literal without its closing quote is read as
it stands, so a line that has one can edit the map although a fault is told.

## Main definitions

* `Charmap.Edit`: a change of the map, with `Legal` if it can be made and `Makes` for what it leaves
* `Source.lineDirective?`: the directive of a line
* `Reading.edit?`: the change that a line asks for

## Main results

* `Reading.obeys_readDirective`: a directive makes the change that it asks for, or is at fault
* `Reading.charmap_edits_are_atomic`: the map behind each line
-/

namespace Assembler6502

namespace Charmap

/-! ## Edits -/

/-- A change of a character map: every byte stands for itself again, there are new entries from one
on, or there is a new map. -/
inductive Edit where
  | reset
  | entries (base : Value) (values : List Value)
  | whole (bytes : List UInt8)
  deriving DecidableEq

namespace Edit

/-- The new entries are bytes and fit into the map. -/
def Legal : Edit → Prop
  | reset => True
  | entries base values =>
    0 ≤ base.toInt ∧ base.toInt + values.length ≤ 256 ∧
      ∀ v ∈ values, 0 ≤ v.toInt ∧ v.toInt ≤ 255
  | whole bytes => bytes.length = 256

/-- The second map is the first one with the change made, and no other change. -/
def Makes (m m' : Charmap) : Edit → Prop
  | reset => ∀ b, m'.translate b = b
  | entries base values => ∀ b : UInt8,
      (∀ (i : Nat) v, values[i]? = some v → b.toNat = base.toInt + i →
        (m'.translate b).toNat = v.toInt) ∧
      (b.toNat < base.toInt ∨ base.toInt + values.length ≤ b.toNat →
        m'.translate b = m.translate b)
  | whole bytes => ∀ b : UInt8, bytes[b.toNat]? = some (m'.translate b)

end Edit

theorem getElem?_entries (m : Charmap) (b : UInt8) :
    m.entries.toList[b.toNat]? = some (m.translate b) := by
  have hb : b.toNat < m.entries.toList.length := by
    rw [Vector.length_toList]
    exact b.toNat_lt
  rw [List.getElem?_eq_getElem hb, Vector.getElem_toList]
  rfl

theorem translate_ofFn (f : Fin 256 → UInt8) (b : UInt8) :
    (Charmap.mk (Vector.ofFn f)).translate b = f b.toFin :=
  Vector.getElem_ofFn _

variable {m m' : Charmap} {base : Value} {values : List Value}

/-- What is checked before entries are replaced is that they can be. -/
theorem legal_entries_iff (base : Value) (values : List Value) :
    (Edit.entries base values).Legal ↔
      (values.any fun v => v < 0 || 255 < v) = false ∧
        ¬ (base < 0 ∨ 256 < base.toInt.toNat + values.length) := by
  have hzero : (0 : Value).toInt = 0 := rfl
  have hlast : (255 : Value).toInt = 255 := rfl
  have hbytes : (values.any fun v => v < 0 || 255 < v) = false ↔
      ∀ v ∈ values, 0 ≤ v.toInt ∧ v.toInt ≤ 255 := by
    simp [List.any_eq_false, Int64.lt_iff_toInt_lt, hzero, hlast]
  rw [hbytes, Int64.lt_iff_toInt_lt, hzero, Edit.Legal]
  constructor
  · rintro ⟨hbase, hfit, hvalues⟩
    exact ⟨hvalues, by omega⟩
  · rintro ⟨hvalues, hfit⟩
    exact ⟨by omega, by omega, hvalues⟩

instance : DecidablePred Edit.Legal
  | .reset => .isTrue trivial
  | .entries base values => decidable_of_iff _ (legal_entries_iff base values).symm
  | .whole bytes => Nat.decEq bytes.length 256

theorem not_legal_of_replace? {e : ParseError} (h : m.replace? base values = .error e) :
    ¬ (Edit.entries base values).Legal := by
  intro hlegal
  obtain ⟨hbytes, hfit⟩ := (legal_entries_iff base values).mp hlegal
  rw [replace?, hbytes, if_neg Bool.false_ne_true, if_neg hfit] at h
  cases h

theorem makes_of_replace? (h : m.replace? base values = .ok m') :
    (Edit.entries base values).Legal ∧ (Edit.entries base values).Makes m m' := by
  unfold replace? at h
  split at h
  · cases h
  split at h
  · cases h
  rename_i hbytes hfit
  have hlegal := (legal_entries_iff base values).mpr ⟨by simpa using hbytes, hfit⟩
  refine ⟨hlegal, ?_⟩
  obtain ⟨hbase, -, hvalues⟩ := hlegal
  rw [Edit.Makes]
  intro b
  rw [← Except.ok.inj h, translate_ofFn]
  have hindex : b.toFin.val = b.toNat := rfl
  constructor
  · intro i v hv hb
    -- The entry is the one that stands so far behind the first.
    have hi : b.toFin.val - base.toInt.toNat = i := by omega
    have hstart : base.toInt.toNat ≤ b.toFin.val := by omega
    obtain ⟨hlow, hhigh⟩ := hvalues v (List.mem_of_getElem? hv)
    simp only [hi, hv, hstart, if_true, UInt8.toNat_ofNat']
    omega
  · rintro (hb | hb)
    · -- Below the first new entry the index is cut off at zero, where a value may be found.
      have hstart : ¬ base.toInt.toNat ≤ b.toFin.val := by omega
      simp only [hstart, if_false]
      split <;> rfl
    · have hnone : values[b.toFin.val - base.toInt.toNat]? = none :=
        List.getElem?_eq_none (by omega)
      simp only [hnone]
      rfl

theorem makes_of_ofBytes? {bytes : List UInt8} (h : ofBytes? bytes = some m') :
    (Edit.whole bytes).Legal ∧ (Edit.whole bytes).Makes m m' := by
  unfold ofBytes? at h
  split at h
  · rename_i hlength
    refine ⟨hlength, ?_⟩
    rw [Edit.Makes, ← Option.some.inj h]
    intro b
    rw [← getElem?_entries, Vector.toList_mk, List.toList_toArray]
  · cases h

theorem not_legal_of_ofBytes? {bytes : List UInt8} (h : ofBytes? bytes = none) :
    ¬ (Edit.whole bytes).Legal := by
  intro hlength
  rw [Edit.Legal] at hlength
  rw [ofBytes?, dif_pos hlength] at h
  cases h

end Charmap

/-! ## What a line asks for -/

namespace Source

/-- The directive that some tokens start with: its name and the tokens behind the name. -/
def directive? : List Token → Option (String × List Token)
  | ⟨.mark .dot, _⟩ :: ⟨.identifier name, _⟩ :: rest => some (name, rest)
  | _ => none

/-- The directive of a line, behind its labels. -/
def lineDirective? (tokens : List Token) : Option (String × List Token) :=
  directive? (takeLabels 0 tokens).2.2

/-- The name of the directive of a line. -/
def directiveName? (tokens : List Token) : Option String :=
  (lineDirective? tokens).map (·.1)

/-- The change that a directive asks for. -/
def Setting.edit? (fs : FileSystem) (directory : String) (g : Setting) (name : String)
    (ts : List Token) : Option Charmap.Edit :=
  match name with
  | "charmap" =>
    if (Token.first ts).isLineEnd then some .reset
    else do
      let exprs ← (g.readValues false ts).toOption
      let values ← (exprs.mapM Reading.constantValue).toOption
      let base ← values.head?
      return .entries base values.tail
  | "charmapbin" => do
    let name ← (readFileName ts).toOption
    let bytes ← (fs.read (Path.join directory name)).toOption
    return .whole bytes
  | _ => none

/-- The tokens behind the labels do not depend on how the labels are numbered. -/
theorem snd_takeLabels (count : Nat) (tokens : List Token) :
    (takeLabels count tokens).2.2 = (takeLabels 0 tokens).2.2 := by
  have hany (n : Nat) : (takeLabels count tokens).2.2 = (takeLabels n tokens).2.2 := by
    fun_induction takeLabels count tokens generalizing n with
    | case1 _ _ _ _ _ _ _ _ hrest ih =>
      rw [hrest] at ih
      exact ih n
    | case2 _ _ _ _ _ _ hrest ih =>
      rw [hrest] at ih
      exact ih (n + 1)
    | case3 count ts hname hstar => rw [takeLabels.eq_3 _ _ hname hstar]
  exact hany 0

theorem directive?_takeLabels (count : Nat) (tokens : List Token) :
    directive? (takeLabels count tokens).2.2 = lineDirective? tokens := by
  rw [snd_takeLabels, lineDirective?]

theorem exists_lineDirective {tokens : List Token} {name : String}
    (h : directiveName? tokens = some name) :
    ∃ rest, lineDirective? tokens = some (name, rest) := by
  obtain ⟨⟨_, rest⟩, hdirective, rfl⟩ := Option.map_eq_some_iff.mp h
  exact ⟨rest, hdirective⟩

theorem readPhrase_of_directive {ts rest : List Token} {name : String} (g : Setting)
    (h : directive? ts = some (name, rest)) : readPhrase g ts = g.readDirective name rest := by
  unfold directive? at h
  split at h
  · cases h
    rfl
  · cases h

/-! ## Phrases that leave the map alone -/

/-- A phrase that does not edit the character map and asks for no file, which could do so. -/
def Phrase.isPlain : Phrase → Bool
  | .include _ _ | .charmapReset | .charmapEntries _ | .charmapFile _ => false
  | _ => true

/-- The directives whose phrases are not plain. -/
def mapDirectives : List String :=
  ["charmap", "charmapbin", "include", "require"]

theorem isPlain_readIncbin (g : Setting) (ts : List Token) :
    Yields (fun phrase => phrase.isPlain = true) (g.readIncbin ts) := by
  refine .bind fun x => ?_
  dsimp only
  split
  · refine .bind fun x => ?_
    split
    · exact .bind fun _ => .bind fun _ => .pure rfl
    · exact .bind fun _ => .pure rfl
  · exact .bind fun _ => .pure rfl

theorem isPlain_readReserve (ts : List Token) :
    Yields (fun phrase => phrase.isPlain = true) (Setting.readReserve ts) := by
  refine .bind fun x => ?_
  dsimp only
  split
  · exact .bind fun _ => .bind fun _ => .pure rfl
  · exact .error _

theorem isPlain_readDirective (g : Setting) {name : String} (ts : List Token)
    (h : name ∉ mapDirectives) :
    Yields (fun phrase => phrase.isPlain = true) (g.readDirective name ts) := by
  unfold Setting.readDirective
  split
  all_goals first
    | exact absurd (by decide) h
    | exact isPlain_readIncbin g ts
    | exact isPlain_readReserve ts
    | exact .error _
    | exact .bind fun _ => .pure rfl
    | exact .bind fun _ => .bind fun _ => .pure rfl

/-- Only one of these directives has a phrase that is not plain. -/
theorem isPlain_readPhrase (g : Setting) {ts : List Token}
    (h : ∀ name, (directive? ts).map (·.1) = some name → name ∉ mapDirectives) :
    Yields (fun phrase => phrase.isPlain = true) (readPhrase g ts) := by
  unfold readPhrase
  split
  · exact .pure rfl
  · exact .pure rfl
  · rename_i hdot
    have hname : Yields (fun x => directive? ts = some x) (readIdentifier "label" ts.tail) := by
      rcases ts with _ | ⟨⟨_, _⟩, ts⟩
      · cases hdot
      · cases hdot
        simp only [List.tail_cons, readIdentifier]
        rcases ts with _ | ⟨⟨_, _⟩, ts⟩
        · exact .error _
        · split
          · rename_i hname
            cases hname
            exact .pure rfl
          · exact .error _
    exact .bind_of hname fun x hx => isPlain_readDirective g x.2 (h x.1 (by rw [hx]; rfl))
  · exact .bind fun _ => .pure rfl
  · exact .bind fun _ => .pure rfl

end Source

namespace Reading

variable {fs : FileSystem} {load : Loader}

theorem charmap_perform {r : Reading} {phrase : Source.Phrase} (directory : String)
    (location : Location) (h : phrase.isPlain = true) :
    Yields (fun x => x.1.charmap = r.charmap) (r.perform fs load directory location phrase) := by
  intro x hx
  cases performs_perform directory phrase x hx with
  | charmap hedits _ => cases hedits <;> cases h
  | file => cases h
  | _ => rfl

/-! ## Phrases that edit the map -/

/-- The change that a line asks for. -/
def edit? (fs : FileSystem) (directory : String) (r : Reading) (tokens : List Token) :
    Option Charmap.Edit :=
  (Source.lineDirective? tokens).bind fun directive =>
    Source.Setting.edit? fs directory
      ⟨r.cpu, r.charmap, (Source.takeLabels r.anonymousLabels tokens).2.1⟩ directive.1 directive.2

/-- A change that was asked for is made, and nothing is told, or there is a fault and no change that
could be made was asked for. -/
def Obeys (r : Reading) (asked : Option Charmap.Edit) :
    Except ParseError (Reading × List Node) → Prop
  | .ok (r', _) => r'.diagnostics = r.diagnostics ∧
      ∃ edit, asked = some edit ∧ edit.Legal ∧ edit.Makes r.charmap r'.charmap
  | .error _ => ∀ edit, asked = some edit → ¬ edit.Legal

theorem obeys_entries (fs : FileSystem) (load : Loader) (directory : String) (location : Location)
    (r : Reading) (exprs : List Expr) :
    r.Obeys (do
        let values ← (exprs.mapM constantValue).toOption
        let base ← values.head?
        return .entries base values.tail)
      (r.perform fs load directory location (.charmapEntries exprs)) := by
  simp only [perform]
  cases exprs.mapM constantValue with
  | error e => rintro _ ⟨⟩
  | ok values =>
    cases values with
    | nil => rintro _ ⟨⟩
    | cons base values =>
      show r.Obeys (some (.entries base values)) (r.charmap.replace? base values >>= _)
      cases hreplace : r.charmap.replace? base values with
      | error e =>
        rintro _ ⟨⟩
        exact Charmap.not_legal_of_replace? hreplace
      | ok charmap => exact ⟨rfl, _, rfl, Charmap.makes_of_replace? hreplace⟩

theorem obeys_file (fs : FileSystem) (load : Loader) (directory : String) (location : Location)
    (r : Reading) (name : String) :
    r.Obeys (do
        let bytes ← (fs.read (Path.join directory name)).toOption
        return .whole bytes)
      (r.perform fs load directory location (.charmapFile name)) := by
  simp only [perform]
  cases fs.read (Path.join directory name) with
  | error e => rintro _ ⟨⟩
  | ok bytes =>
    cases hmap : Charmap.ofBytes? bytes with
    | none =>
      simp only [hmap]
      rintro _ ⟨⟩
      exact Charmap.not_legal_of_ofBytes? hmap
    | some charmap =>
      simp only [hmap]
      exact ⟨rfl, _, rfl, Charmap.makes_of_ofBytes? hmap⟩

/-- **A directive that edits the map** does what it asks for, or is at fault. -/
theorem obeys_readDirective (fs : FileSystem) (load : Loader) (g : Source.Setting)
    (directory : String) (location : Location) (r : Reading) {name : String} (ts : List Token)
    (h : name = "charmap" ∨ name = "charmapbin") :
    r.Obeys (g.edit? fs directory name ts)
      (g.readDirective name ts >>= r.perform fs load directory location) := by
  rcases h with rfl | rfl
  · show r.Obeys (g.edit? fs directory "charmap" ts) (g.readCharmap ts >>= _)
    simp only [Source.Setting.readCharmap, Source.Setting.edit?]
    by_cases hend : (Token.first ts).isLineEnd = true
    · simp only [hend, if_true]
      exact ⟨rfl, _, rfl, trivial, Charmap.translate_identity⟩
    · simp only [hend]
      cases g.readValues false ts with
      | error e => rintro _ ⟨⟩
      | ok exprs => exact obeys_entries fs load directory location r exprs
  · simp only [Source.Setting.readDirective, Source.Setting.edit?]
    cases Source.Setting.readFileName ts with
    | error e => rintro _ ⟨⟩
    | ok name => exact obeys_file fs load directory location r name

/-! ## The map behind a line -/

theorem readLines_concat (file directory : String) (r : Reading) (lines : List Source.Line)
    (line : Source.Line) :
    (readLines fs load file directory r (lines ++ [line])).1 =
      behindLine fs load file directory (readLines fs load file directory r lines).1 line := by
  rw [fst_readLines, fst_readLines, List.foldl_concat]

theorem charmap_behindLine_of_plain (file directory : String) (r : Reading) {line : Source.Line}
    (h : ∀ name, Source.directiveName? line.tokens = some name → name ∉ Source.mapDirectives) :
    (behindLine fs load file directory r line).charmap = r.charmap := by
  rw [Source.directiveName?, ← Source.directive?_takeLabels r.anonymousLabels] at h
  rw [behindLine, reportFaults_eq, readStatements_eq_match]
  have hplain : Yields (fun x => x.1.charmap = r.charmap)
      (r.lineOutcome fs load file directory line.tokens) :=
    .bind_of (Source.isPlain_readPhrase _ h) fun _ hphrase => charmap_perform _ _ hphrase
  cases hout : r.lineOutcome fs load file directory line.tokens with
  | ok x => exact hplain x hout
  | error e => rfl

/-- A line that edits the map has its change made, or has a fault and leaves the map alone. -/
theorem behindLine_of_edit (fs : FileSystem) (load : Loader) (file directory : String) (r : Reading)
    {line : Source.Line}
    (h : Source.directiveName? line.tokens = some "charmap" ∨
      Source.directiveName? line.tokens = some "charmapbin") :
    let after := behindLine fs load file directory r line
    ∃ own : Option ParseError,
      after.diagnostics.errors = r.diagnostics.errors ++
        own.toList.map (fun e => ⟨lineLocation file line.tokens, .parse e⟩) ++
          lexicalFaults file line.faults ∧
      (∀ e, own = some e → e.isLexical = false ∧ after.charmap = r.charmap ∧
        ∀ edit, r.edit? fs directory line.tokens = some edit → ¬ edit.Legal) ∧
      (own = none → ∃ edit, r.edit? fs directory line.tokens = some edit ∧ edit.Legal ∧
        edit.Makes r.charmap after.charmap) := by
  intro after
  obtain ⟨name, rest, hname, hdirective⟩ : ∃ name rest, (name = "charmap" ∨ name = "charmapbin") ∧
      Source.lineDirective? line.tokens = some (name, rest) := by
    rcases h with h | h
    · obtain ⟨rest, hdirective⟩ := Source.exists_lineDirective h
      exact ⟨_, rest, .inl rfl, hdirective⟩
    · obtain ⟨rest, hdirective⟩ := Source.exists_lineDirective h
      exact ⟨_, rest, .inr rfl, hdirective⟩
  -- The labels of the line are counted, and leave the map and what was told alone.
  have hobeys : (r.readLabels file line.tokens).1.Obeys (r.edit? fs directory line.tokens)
      (r.lineOutcome fs load file directory line.tokens) := by
    have hrest := (Source.directive?_takeLabels r.anonymousLabels line.tokens).trans hdirective
    simp only [lineOutcome, edit?, hdirective, Source.readPhrase_of_directive _ hrest]
    exact obeys_readDirective fs load _ directory _ _ rest hname
  simp only [after, behindLine, reportFaults_eq, readStatements_eq_match]
  cases hout : r.lineOutcome fs load file directory line.tokens with
  | ok x =>
    rw [hout] at hobeys
    obtain ⟨htold, hedit⟩ := hobeys
    refine ⟨none, ?_, ?_, fun _ => hedit⟩
    · show x.1.diagnostics.errors ++ _ = r.diagnostics.errors ++ [] ++ _
      rw [htold, List.append_nil]
      rfl
    · rintro _ ⟨⟩
  | error e =>
    rw [hout] at hobeys
    refine ⟨some e, rfl, ?_, ?_⟩
    · rintro _ ⟨⟩
      exact ⟨(fails_lineOutcome _ _ _ _ _ _ e hout).1, rfl, hobeys⟩
    · rintro ⟨⟩

/-- **Edits of the character map are atomic.** Behind each line the map has an entry for each of the
256 bytes. A line that edits the map and has a fault, other than one inside a token, leaves the map
as it was, and this happens exactly if it asks for no change that can be made. Otherwise the change
is made, and nothing else: the new entries take the places from the first one on, in order, and all
other entries stay. No other line edits the map, but for those that ask for files. -/
theorem charmap_edits_are_atomic (fs : FileSystem) (load : Loader) (file directory : String)
    (r : Reading) (lines : List Source.Line) (line : Source.Line) :
    let before := (readLines fs load file directory r lines).1
    let after := (readLines fs load file directory r (lines ++ [line])).1
    let asked := before.edit? fs directory line.tokens
    (after.charmap.entries.toList.length = 256 ∧
        ∀ b : UInt8, after.charmap.entries.toList[b.toNat]? = some (after.charmap.translate b)) ∧
      (Source.directiveName? line.tokens = some "charmap" ∨
          Source.directiveName? line.tokens = some "charmapbin" →
        ∃ own : Option ParseError,
          after.diagnostics.errors = before.diagnostics.errors ++
            own.toList.map (fun e => ⟨lineLocation file line.tokens, .parse e⟩) ++
              lexicalFaults file line.faults ∧
          (∀ e, own = some e → e.isLexical = false ∧ after.charmap = before.charmap ∧
            ∀ edit, asked = some edit → ¬ edit.Legal) ∧
          (own = none → ∃ edit, asked = some edit ∧ edit.Legal ∧
            edit.Makes before.charmap after.charmap)) ∧
      ((∀ name, Source.directiveName? line.tokens = some name → name ∉ Source.mapDirectives) →
        after.charmap = before.charmap) := by
  intro before after asked
  have hafter : after = behindLine fs load file directory before line :=
    readLines_concat file directory r lines line
  refine ⟨⟨Vector.length_toList, after.charmap.getElem?_entries⟩, ?_, ?_⟩
  · intro hname
    rw [hafter]
    exact behindLine_of_edit fs load file directory before hname
  · intro hplain
    rw [hafter]
    exact charmap_behindLine_of_plain file directory before hplain

/-- Two bytes get new entries. -/
def replacingLine : Source.Line :=
  ⟨Source.lineTokens 1 ".charmap 97, \"AB\"".toList, []⟩

/-- Three bytes are to get new entries where only two are left. -/
def overflowingLine : Source.Line :=
  ⟨Source.lineTokens 2 "end: .charmap 254, 1, 2, 3".toList, []⟩

theorem charmap_edits_are_atomic_overflowingLine :
    let r : Reading := { cpu := .mos6502 }
    let load := loadWithin .empty 1
    let before := (readLines .empty load "a.s" "" r [replacingLine]).1
    let after := (readLines .empty load "a.s" "" r ([replacingLine] ++ [overflowingLine])).1
    before.diagnostics.errors = [] ∧
      (before.charmap.translate 97).toNat = 65 ∧ (before.charmap.translate 98).toNat = 66 ∧
      before.charmap.translate 99 = 99 ∧
      after.diagnostics.errors = [⟨.source "a.s" 2 1, .parse .charmapOutOfRange⟩] ∧
      after.charmap = before.charmap := by
  intro r load before after
  have hstart : (readLines .empty load "a.s" "" r []).1 = r := rfl
  -- The first line asks for a change that can be made, and the second one does not.
  have hasked : r.edit? .empty "" replacingLine.tokens = some (.entries 97 [65, 66]) := by
    decide +kernel
  have hasked' : before.edit? .empty "" overflowingLine.tokens = some (.entries 254 [1, 2, 3]) := by
    decide +kernel
  have hmade : (Charmap.Edit.entries 97 [65, 66]).Makes r.charmap before.charmap := by
    obtain ⟨own, -, hfault, hmade⟩ := (charmap_edits_are_atomic .empty load "a.s" "" r []
      replacingLine).2.1 (.inl (by decide +kernel))
    rw [hstart, List.nil_append] at hmade
    rw [hstart] at hfault
    cases own with
    | some e => exact absurd (by decide) ((hfault e rfl).2.2 _ hasked)
    | none =>
      obtain ⟨edit, hedit, -, hmakes⟩ := hmade rfl
      obtain rfl := Option.some.inj (hasked.symm.trans hedit)
      exact hmakes
  have hkept : after.charmap = before.charmap := by
    obtain ⟨own, -, hfault, hmade⟩ := (charmap_edits_are_atomic .empty load "a.s" "" r
      [replacingLine] overflowingLine).2.1 (.inl (by decide +kernel))
    cases own with
    | some e => exact (hfault e rfl).2.1
    | none =>
      obtain ⟨edit, hedit, hlegal, -⟩ := hmade rfl
      obtain rfl := Option.some.inj (hasked'.symm.trans hedit)
      exact absurd hlegal (by decide)
  refine ⟨by decide +kernel, ?_, ?_, ?_, by decide +kernel, hkept⟩
  -- What the map has is known, so it is not computed.
  all_goals clear_value before
  · exact Int.ofNat_inj.mp ((hmade 97).1 0 65 rfl rfl)
  · exact Int.ofNat_inj.mp ((hmade 98).1 1 66 rfl rfl)
  · exact ((hmade 99).2 (.inr (by decide))).trans (Charmap.translate_identity 99)

/-- New entries in a string literal that is not closed. -/
def openLiteral : List Char :=
  ".charmap 97, \"ABC".toList

/-- A line edits the map although a fault is told, if the fault is inside a token. -/
theorem charmap_edited_by_openLiteral :
    let r : Reading := { cpu := .mos6502 }
    let after := (readLines .empty (loadWithin .empty 1) "a.s" "" r (Source.lines openLiteral)).1
    (Source.lines openLiteral).map (fun line => Source.directiveName? line.tokens) =
        [some "charmap"] ∧
      after.diagnostics.errors =
        [⟨.source "a.s" 1 18, .parse (.lexical .unterminatedString)⟩] ∧
      r.charmap.translate 97 = 97 ∧ (after.charmap.translate 97).toNat = 65 := by
  intro r after
  have hname : (Source.lines openLiteral).map (fun line => Source.directiveName? line.tokens) =
      [some "charmap"] := by decide +kernel
  have hasked : (Source.lines openLiteral).map (fun line => r.edit? .empty "" line.tokens) =
      [some (.entries 97 [65, 66, 67])] := by decide +kernel
  refine ⟨hname, by decide +kernel, Charmap.translate_identity 97, ?_⟩
  obtain ⟨line, rest, hlines, hline, hrest⟩ := List.map_eq_cons_iff.mp hname
  obtain rfl := List.map_eq_nil_iff.mp hrest
  rw [hlines] at hasked
  have hafter : after = behindLine .empty (loadWithin .empty 1) "a.s" "" r line := by
    simp only [after, fst_readLines, hlines, List.foldl_cons, List.foldl_nil]
  clear_value after
  obtain ⟨own, -, hfault, hmade⟩ := behindLine_of_edit .empty (loadWithin .empty 1) "a.s" "" r
    (.inl hline)
  rw [← hafter] at hmade
  cases own with
  | some e => exact absurd (by decide) ((hfault e rfl).2.2 _ (List.cons.inj hasked).1)
  | none =>
    obtain ⟨edit, hedit, -, hmakes⟩ := hmade rfl
    obtain rfl := Option.some.inj ((List.cons.inj hasked).1.symm.trans hedit)
    exact Int.ofNat_inj.mp ((hmakes 97).1 0 65 rfl rfl)

end Reading
end Assembler6502
