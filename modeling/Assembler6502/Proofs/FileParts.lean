import Mathlib.Data.List.Perm.Basic
import Assembler6502.Proofs.Constants
import Assembler6502.Proofs.Directives
import Assembler6502.Proofs.Standstill
import Assembler6502.Proofs.Tours

/-!
# Parts of files

Part of a file is included in one of two ways. If its bounds are constant, then the line that names
it is read as plain data. If they wait for the values of labels, then the bytes are cut out when
they are written. When the labels are constants, both ways lead to the same bytes or to the same
fault, in whichever order the lines stand.

## Main definitions

* `BoundsFault`, `boundsFault?`: what is wrong with the bounds of a part of a file
* `filePart`: the bytes between bounds
* `Expr.Denotes`: a constant expression with a value

## Main results

* `Reading.slice_eq`, `Pass.subrange_eq`: what is cut out when a line is read or written
* `Expr.exists_denotes`: every value is that of a constant expression
* `Assembly.ofProgram_single`: one statement among constants is written with their values
* `Assembly.incbin_agrees`: both ways to include part of a file agree
-/

namespace Assembler6502

/-! ## Bounds -/

/-- What can be wrong with the bounds of a part of a file. -/
inductive BoundsFault where
  | negativeOffset
  | offsetPastEnd
  | negativeLength
  | tooLong
  deriving DecidableEq, Repr

namespace BoundsFault

/-- The fault of a line with constant bounds. -/
def whenRead : BoundsFault → ParseError
  | negativeOffset => .negativeOffset
  | offsetPastEnd => .offsetPastEnd
  | negativeLength => .negativeLength
  | tooLong => .lengthTooLong

/-- The fault of bytes whose bounds are known when they are written. -/
def whenWritten : BoundsFault → EmissionError
  | negativeOffset => .negativeOffset
  | offsetPastEnd => .offsetPastEnd
  | negativeLength => .negativeLength
  | tooLong => .fileTooSmall

end BoundsFault

/-- What is wrong with the bounds of a part of a file with so many bytes. Without a length the part
goes to the end of the file. -/
def boundsFault? (size : Nat) (offset : Value) (length : Option Value) : Option BoundsFault :=
  if offset.toInt < 0 then some .negativeOffset
  else if size < offset.toInt then some .offsetPastEnd
  else
    match length with
    | none => none
    | some length =>
      if length.toInt < 0 then some .negativeLength
      else if size < offset.toInt + length.toInt then some .tooLong
      else none

/-- The bytes from an offset on, as many as the length tells, or all of them. -/
def filePart (bytes : List UInt8) (offset : Value) : Option Value → List UInt8
  | none => bytes.drop offset.toInt.toNat
  | some length => (bytes.drop offset.toInt.toNat).take length.toInt.toNat

/-- The expression can be written, mentions neither labels nor the program counter, and has a
value. -/
structure Expr.Denotes (e : Expr) (v : Value) : Prop where
  legible : e.Legible
  hardcoded : e.isHardcoded = true
  evaluate : ∀ ν, e.evaluate ν = .ok v

/-- **Every value is that of a constant expression.** There are no negative numerals, and one value
is not even the negative of another. -/
theorem Expr.exists_denotes (v : Value) : ∃ e : Expr, e.Denotes v := by
  by_cases hv : 0 ≤ v
  · exact ⟨.constant v, by rwa [Legible], rfl, fun _ => rfl⟩
  · have hneg : v.toInt < 0 := Int64.lt_iff_toInt_lt.mp (Int64.not_le.mp hv)
    -- The least value has no opposite, but its successor has one.
    have hnext : (v + 1).toInt = v.toInt + 1 := by
      have hone : (1 : Int64).toInt = 1 := rfl
      have hmin := v.le_toInt
      rw [Int64.toInt_add, hone]
      exact Int.bmod_eq_of_le (by omega) (by omega)
    have hopposite : 0 ≤ -(v + 1) := by
      have hzero : (0 : Int64).toInt = 0 := rfl
      have hmin := v.le_toInt
      rw [Int64.le_iff_toInt_le, hzero, Int64.toInt_neg, hnext]
      rw [Int.bmod_eq_of_le (by omega) (by omega)]
      omega
    refine ⟨.chain (.constant 0) [(.subtract, .constant (-(v + 1))), (.subtract, .constant 1)],
      ?_, rfl, fun ν => ?_⟩
    · simp only [Legible, AllLegible]
      exact ⟨by decide, by simp, .additive, rfl, hopposite, rfl, by decide, trivial⟩
    · have hsum : (0 : Value) - -(v + 1) - 1 = v := by grind
      simp only [evaluate, evaluateRest, Operator.apply, bind, Except.bind, hsum]

theorem Expr.evaluate_symbol {ν : Valuation} {s : Symbol} {v : Value} (h : ν.lookup s = some v) :
    (symbol s).evaluate ν = .ok v := by
  rw [evaluate, h]

theorem Expr.evaluate_subtract {ν : Valuation} {e : Expr} {v : Value} (a : Value)
    (h : e.evaluate ν = .ok v) :
    (chain (.constant a) [(.subtract, e)]).evaluate ν = .ok (a - v) := by
  simp only [evaluate, evaluateRest, h, Operator.apply, bind, Except.bind]

section Bounds

variable {bytes : List UInt8} {o l : Value} {offset : Expr} {length : Option Expr}

theorem Reading.constantValue_of_denotes {e : Expr} {v : Value} (h : e.Denotes v) :
    constantValue e = .ok v := by
  rw [constantValue, if_pos h.hardcoded, h.evaluate]

theorem boundsFault?_none (size : Nat) (o : Value) : boundsFault? size o none =
    if o < 0 then some .negativeOffset
    else if size < o.toInt.toNat then some .offsetPastEnd else none := by
  have hnegative : o < 0 ↔ o.toInt < 0 := Int64.lt_iff_toInt_lt
  have hpast : size < o.toInt.toNat ↔ size < o.toInt := by omega
  simp only [boundsFault?, hnegative, hpast]

theorem boundsFault?_some (size : Nat) (o l : Value) : boundsFault? size o (some l) =
    if o < 0 then some .negativeOffset
    else if size < o.toInt.toNat then some .offsetPastEnd
    else if l < 0 then some .negativeLength
    else if size < o.toInt.toNat + l.toInt.toNat then some .tooLong else none := by
  have hnegative (v : Value) : v < 0 ↔ v.toInt < 0 := Int64.lt_iff_toInt_lt
  have hpast : size < o.toInt.toNat ↔ size < o.toInt := by omega
  simp only [boundsFault?, hnegative, hpast]
  by_cases hoffset : o.toInt < 0
  · rw [if_pos hoffset, if_pos hoffset]
  by_cases hlength : l.toInt < 0
  · rw [if_pos hlength, if_pos hlength]
  -- Without negative numbers, sums of natural numbers are sums of integers.
  have hlong : size < o.toInt.toNat + l.toInt.toNat ↔ size < o.toInt + l.toInt := by omega
  simp only [hlong]

/-- What is cut out when a line is read. -/
theorem Reading.slice_eq {l : Option Value} (ho : offset.Denotes o)
    (hl : Option.Rel Expr.Denotes length l) :
    slice bytes offset length =
      match boundsFault? bytes.length o l with
      | some fault => .error fault.whenRead
      | none => .ok (filePart bytes o l) := by
  simp only [slice, constantValue_of_denotes ho, bind, Except.bind]
  -- Both sides test the bounds in the same order, and the first test that fails is told.
  cases hl with
  | none =>
    rw [boundsFault?_none]
    by_cases hoffset : o < 0
    · simp only [if_pos hoffset]
      rfl
    by_cases hpast : bytes.length < o.toInt.toNat
    · simp only [if_neg hoffset, if_pos hpast]
      rfl
    · simp only [if_neg hoffset, if_neg hpast]
      rfl
  | @some e l he =>
    rw [boundsFault?_some]
    simp only [constantValue_of_denotes he]
    by_cases hoffset : o < 0
    · simp only [if_pos hoffset]
      rfl
    by_cases hpast : bytes.length < o.toInt.toNat
    · simp only [if_neg hoffset, if_pos hpast]
      rfl
    by_cases hlength : l < 0
    · simp only [if_neg hoffset, if_neg hpast, if_pos hlength]
      rfl
    by_cases hlong : bytes.length < o.toInt.toNat + l.toInt.toNat
    · simp only [if_neg hoffset, if_neg hpast, if_neg hlength, if_pos hlong]
      rfl
    · simp only [if_neg hoffset, if_neg hpast, if_neg hlength, if_neg hlong]
      rfl

/-- What is cut out when bytes are written. -/
theorem Pass.subrange_eq : subrange bytes o l =
    match boundsFault? bytes.length o (some l) with
    | some fault => .error fault.whenWritten
    | none => .ok (filePart bytes o (some l)) := by
  rw [subrange, boundsFault?_some]
  by_cases hoffset : o < 0
  · rw [if_pos hoffset, if_pos hoffset]
    rfl
  rw [if_neg hoffset, if_neg hoffset]
  by_cases hpast : bytes.length < o.toInt.toNat
  · rw [if_pos hpast, if_pos hpast]
    rfl
  rw [if_neg hpast, if_neg hpast]
  by_cases hlength : l < 0
  · rw [if_pos hlength, if_pos hlength]
    rfl
  rw [if_neg hlength, if_neg hlength]
  by_cases hlong : bytes.length < o.toInt.toNat + l.toInt.toNat
  · rw [if_pos hlong, if_pos hlong]
    rfl
  · rw [if_neg hlong, if_neg hlong]
    rfl

/-- The length that is left out is what is left of the file behind the offset. -/
theorem bounds_of_rest (hsize : bytes.length < 2 ^ 63) :
    boundsFault? bytes.length o (some (Int64.ofNat bytes.length - o)) =
        boundsFault? bytes.length o none ∧
      (boundsFault? bytes.length o none = none →
        filePart bytes o (some (Int64.ofNat bytes.length - o)) = filePart bytes o none) := by
  by_cases hoffset : o.toInt < 0
  · simp [boundsFault?, hoffset]
  by_cases hpast : bytes.length < o.toInt
  · simp [boundsFault?, hoffset, hpast]
  have hrest : (Int64.ofNat bytes.length - o).toInt = bytes.length - o.toInt := by
    rw [Int64.toInt_sub, Int64.toInt_ofNat_of_lt hsize]
    exact Int.bmod_eq_of_le (by omega) (by omega)
  have hinside : ¬ (bytes.length : Int) - o.toInt < 0 := by omega
  have hfits : ¬ (bytes.length : Int) < o.toInt + (bytes.length - o.toInt) := by omega
  refine ⟨by simp only [boundsFault?, if_neg hoffset, if_neg hpast, hrest, if_neg hinside,
    if_neg hfits], fun _ => ?_⟩
  rw [filePart, filePart, hrest]
  refine List.take_of_length_le ?_
  rw [List.length_drop]
  omega

end Bounds

/-! ## What is written -/

namespace Pass

variable {cpu : Cpu} {t : Table String Value} {size : Nat} {changed : Bool} {id : Nat}
  {location : Location}

theorem emit_constant {s : Sweep Image} {l : Nat × Statement}
    (h : l.2.item.constant?.isNone = false) : Visit.step emit s l = s := by
  obtain ⟨id, location, item⟩ := l
  cases item with
  | label symbol value => rfl
  | _ => cases h

/-- The bytes of a file are written as they are. -/
theorem foldl_emitValue_bytes {s : Sweep Image} (hw : s.context.env.writable = true)
    (location : Location) (part : List UInt8) :
    (part.map fun b => Expr.constant (Int64.ofNat b.toNat)).foldl
        (fun s e => emitValue s location .byte .little e) s =
      { s with memory.bytes := s.memory.bytes ++ part } := by
  induction part generalizing s with
  | nil => simp
  | cons b part ih =>
    rw [List.map_cons, List.foldl_cons, emitValue_byte hw]
    refine (@ih { s with memory.bytes := s.memory.bytes ++ [b] } hw).trans ?_
    simp

/-- Nothing is found but that the last pass has come to the end with some bytes, or with a fault and
without bytes. -/
structure Ends (s : Sweep Image) (faults : List (Located Fault)) (bytes : List UInt8) : Prop where
  diagnostics : s.context.restart.diagnostics = ⟨faults, []⟩
  bytes : s.memory.bytes.toList = bytes

theorem emit_bytes (part : List UInt8) :
    Ends (emit ⟨.knowing cpu t 0, size, changed, {}⟩ id ⟨location, .data .byte .little
      (part.map fun b => .constant (Int64.ofNat b.toNat))⟩).1 [] part := by
  have hwritten := foldl_emitValue_bytes (s := ⟨.knowing cpu t 0, size, changed, {}⟩) rfl
    location part
  simp only [emit, Visit.observe, emitData, hwritten]
  exact ⟨rfl, by simp [Sweep.mapEnv, Sweep.mapContext]⟩

/-- **A part of a file is cut out with the values of its bounds.** -/
theorem emit_byteRange {offset length : Expr} {o l : Value}
    (ho : (Context.knowing cpu t 0).evaluate offset = .ok o)
    (hl : (Context.knowing cpu t 0).evaluate length = .ok l) (size : Nat) (changed : Bool)
    (id : Nat) (location : Location) (bytes : List UInt8) :
    match boundsFault? bytes.length o (some l) with
    | some fault => Ends (emit ⟨.knowing cpu t 0, size, changed, {}⟩ id
        ⟨location, .byteRange offset length bytes⟩).1 [⟨location, .emission fault.whenWritten⟩] []
    | none => Ends (emit ⟨.knowing cpu t 0, size, changed, {}⟩ id
        ⟨location, .byteRange offset length bytes⟩).1 [] (filePart bytes o (some l)) := by
  have hoffset : Sweep.valueOf (μ := Image) ⟨.knowing cpu t 0, size, changed, {}⟩ location offset =
      (o, ⟨.knowing cpu t 0, size, changed, {}⟩) := Sweep.valueOf_of_evaluate ho
  have hlength : Sweep.valueOf (μ := Image) ⟨.knowing cpu t 0, size, changed, {}⟩ location length =
      (l, ⟨.knowing cpu t 0, size, changed, {}⟩) := Sweep.valueOf_of_evaluate hl
  simp only [emit, Visit.observe, emitByteRange, hoffset, hlength, subrange_eq]
  cases boundsFault? bytes.length o (some l) with
  | some fault => exact ⟨rfl, rfl⟩
  | none =>
    have hwrite : write ⟨.knowing cpu t 0, size, changed, {}⟩ location
        (filePart bytes o (some l)) = _ := write_of_writable rfl _
    simp only [hwrite]
    exact ⟨rfl, by simp [Sweep.mapEnv, Sweep.mapContext]⟩

end Pass

namespace Assembly

variable {options : Options} {program : Program} {σ : String → Value}

/-- **One statement among constants** is written with the values of the constants. -/
theorem ofProgram_single {item : Item} {labels : List Item} (hp : program.Plain options.cpu σ)
    (hitems : (program.leaves.map (·.2.item)).Perm (item :: labels))
    (hitem : item.constant? = none) (hlabels : ∀ i ∈ labels, i.constant?.isNone = false) :
    ∃ t id location, t.Settles σ (constants program.leaves) ∧
      ∀ faults bytes,
        Pass.Ends (Pass.emit ⟨.knowing options.cpu t 0, program.size, false, {}⟩ id
          ⟨location, item⟩).1 faults bytes →
        (ofProgram options program {}).diagnostics = ⟨faults, []⟩ ∧
          (ofProgram options program {}).image.bytes.toList = bytes := by
  obtain ⟨t, hsettled, hstages⟩ := runStages_plain hp
  -- Of all statements only one is no constant.
  obtain ⟨l, hl, hlitem⟩ : ∃ l : Nat × Statement,
      program.leaves.filter (·.2.item.constant?.isNone) = [l] ∧ l.2.item = item := by
    have hperm := hitems.filter (·.constant?.isNone)
    have hone : (item :: labels).filter (·.constant?.isNone) = [item] := by
      rw [List.filter_cons_of_pos (by simp [hitem]), List.filter_eq_nil_iff.mpr]
      intro i hi
      simp [hlabels i hi]
    rw [hone, List.perm_singleton, List.filter_map, List.map_eq_singleton_iff] at hperm
    obtain ⟨l, hl, hlitem⟩ := hperm
    exact ⟨l, hl, hlitem⟩
  have hclosing : (Workspace.knowing options.cpu program t).closing {} Pass.emit =
      Visit.step Pass.emit ⟨.knowing options.cpu t 0, program.size, false, {}⟩ l := by
    show program.leaves.foldl (Visit.step Pass.emit) _ =
      [l].foldl (Visit.step Pass.emit) ⟨.knowing options.cpu t 0, program.size, false, {}⟩
    rw [← hl, List.foldl_filter]
    congr 1
    funext s l
    split
    · rfl
    · rename_i hconstant
      exact Pass.emit_constant (Bool.eq_false_iff.mpr hconstant)
  refine ⟨t, l.1, l.2.location, hsettled, fun faults bytes hends => ?_⟩
  have hstep : Visit.step Pass.emit ⟨.knowing options.cpu t 0, program.size, false, {}⟩ l =
      (Pass.emit ⟨.knowing options.cpu t 0, program.size, false, {}⟩ l.1
        ⟨l.2.location, item⟩).1 := by
    rw [← hlitem]
    rfl
  have hemit : (Workspace.knowing options.cpu program t).emit =
      (Workspace.knowing options.cpu program t).sweep {} Pass.emit id := rfl
  simp only [ofProgram, hstages, hemit, Workspace.sweep_eq, hclosing, hstep, id]
  exact ⟨hends.diagnostics, hends.bytes⟩

/-- **A program that is nothing but bytes** is written as these bytes. -/
theorem ofProgram_bytes {part : List UInt8} (hitems : program.leaves.map (·.2.item) =
      [.data .byte .little (part.map fun b => .constant (Int64.ofNat b.toNat))]) :
    (ofProgram options program {}).diagnostics = {} ∧
      (ofProgram options program {}).image.bytes.toList = part := by
  have hdefined : ∀ e ∈ part.map fun b => Expr.constant (Int64.ofNat b.toNat), e.Defined [] := by
    intro e he ν hν
    obtain ⟨b, -, rfl⟩ := List.mem_map.mp he
    exact ⟨_, rfl⟩
  have hplain : program.Plain options.cpu (fun _ => 0) :=
    Program.plain_of_perm (.of_eq hitems)
      (List.forall_mem_singleton.mpr (.data _ _ hdefined)) .nil nofun
  obtain ⟨t, id, location, -, hwritten⟩ :=
    ofProgram_single hplain (.of_eq hitems) rfl fun _ hi => absurd hi List.not_mem_nil
  exact hwritten [] _ (Pass.emit_bytes _)

/-! ## Both ways -/

section Ways

open Source (Directive)

variable {fs : FileSystem} {directory file : String} {bytes : List UInt8} {o : Value}
  {l : Option Value} {offset : Expr} {length : Option Expr}

theorem legible_of_rel (hl : Option.Rel Expr.Denotes length l) :
    length.all Expr.isHardcoded = true ∧ ∀ e ∈ length, e.Legible := by
  cases hl with
  | none => simp
  | some he => simp [he.hardcoded, he.legible]

theorem binaryItem_of_denotes (bytes : List UInt8) (ho : offset.Denotes o)
    (hl : Option.Rel Expr.Denotes length l) :
    Reading.binaryItem bytes offset length =
      match boundsFault? bytes.length o l with
      | some fault => .error fault.whenRead
      | none => .ok (.data .byte .little
          ((filePart bytes o l).map fun b => .constant (Int64.ofNat b.toNat))) := by
  rw [Reading.binaryItem, ho.hardcoded, (legible_of_rel hl).1, Reading.slice_eq ho hl]
  cases boundsFault? bytes.length o l <;> rfl

theorem legible_part (hname : '\n' ∉ file.toList) (ho : offset.Denotes o)
    (hl : Option.Rel Expr.Denotes length l) : (Directive.part file offset length).Legible :=
  .part hname ho.legible (legible_of_rel hl).2

/-- **Part of a file with faulty constant bounds** is reported when the line is read. -/
theorem ofSources_constant_of_fault (options : Options) (stdin : Except FileError (List UInt8))
    (source : String) (hname : '\n' ∉ file.toList)
    (hfile : fs.read (Path.join directory file) = .ok bytes) (ho : offset.Denotes o)
    (hl : Option.Rel Expr.Denotes length l) {fault : BoundsFault}
    (hfault : boundsFault? bytes.length o l = some fault) :
    ∃ location, (ofSources options fs stdin [.text source
      (Directive.part file offset length).text directory]).diagnostics =
        ⟨[⟨location, .parse fault.whenRead⟩], []⟩ := by
  have hbinary := binaryItem_of_denotes bytes ho hl
  rw [hfault] at hbinary
  obtain ⟨location, hread⟩ := Directive.read_of_fault options.cpu stdin source
    (legible_part hname ho hl) hfile hbinary
  refine ⟨location, ?_⟩
  rw [ofSources_eq, hread, ofProgram_of_fault rfl]

/-- **Part of a file with constant bounds** is cut out when the line is read. -/
theorem ofSources_constant (options : Options) (stdin : Except FileError (List UInt8))
    (source : String) (hname : '\n' ∉ file.toList)
    (hfile : fs.read (Path.join directory file) = .ok bytes) (ho : offset.Denotes o)
    (hl : Option.Rel Expr.Denotes length l) (hbounds : boundsFault? bytes.length o l = none) :
    (ofSources options fs stdin [.text source
        (Directive.part file offset length).text directory]).diagnostics = {} ∧
      (ofSources options fs stdin [.text source
        (Directive.part file offset length).text directory]).image.bytes.toList =
          filePart bytes o l := by
  have hbinary := binaryItem_of_denotes bytes ho hl
  rw [hbounds] at hbinary
  have hmakes : Directive.Makes fs directory (.part file offset length) (.data .byte .little
      ((filePart bytes o l).map fun b => .constant (Int64.ofNat b.toNat))) := by
    intro load location r
    rw [Directive.perform_part hfile, hbinary]
    rfl
  obtain ⟨hdiagnostics, hitems⟩ := Directive.read_of_makes options.cpu stdin source
    (List.forall_mem_singleton.mpr (legible_part hname ho hl)) (.cons hmakes .nil)
  rw [List.flatMap_singleton] at hdiagnostics hitems
  rw [ofSources_eq, hdiagnostics]
  exact ofProgram_bytes hitems

/-- Part of a file whose bounds are labels, and the labels. The second one is only needed for a
length. -/
def labelled (file : String) (offset : Expr) (length : Option Expr) : List Directive :=
  .part file (.symbol (.global "so")) (length.map fun _ => .symbol (.global "sl")) ::
    .constant "so" offset :: (length.map (Directive.constant "sl")).toList

/-- The length of a part of a file whose bounds are labels. -/
def labelledLength (size : Nat) : Option Expr → Expr
  | none => .chain (.constant (Int64.ofNat size)) [(.subtract, .symbol (.global "so"))]
  | some _ => .symbol (.global "sl")

/-- The statements that the lines become. -/
def labelledItems (bytes : List UInt8) (offset : Expr) (length : Option Expr) : List Item :=
  .byteRange (.symbol (.global "so")) (labelledLength bytes.length length) bytes ::
    .label (.global "so") offset :: (length.map (Item.label (.global "sl"))).toList

/-- The values of the labels. -/
def labelValues (o : Value) (l : Option Value) (name : String) : Value :=
  if name = "so" then o else l.getD 0

theorem legible_labels : (Symbol.global "so").Legible ∧ (Symbol.global "sl").Legible := by
  have hletters : (Text.Settled 's' ∧ Text.Settled 'o' ∧ Text.Settled 'l') ∧
      Cursor.isWordChar 's' = true ∧ Cursor.isWordChar 'o' = true ∧
        Cursor.isWordChar 'l' = true := by
    decide +kernel
  have hso : Text.IsName "so".toList := ⟨by simp [hletters], by simp [hletters], _, _, rfl, rfl⟩
  have hsl : Text.IsName "sl".toList := ⟨by simp [hletters], by simp [hletters], _, _, rfl, rfl⟩
  exact ⟨Symbol.legible_ofText hso, Symbol.legible_ofText hsl⟩

theorem nameWarning?_labels (cpu : Cpu) : Pass.nameWarning? cpu (.global "so") = none ∧
    Pass.nameWarning? cpu (.global "sl") = none := by
  have hso : Mnemonic.ofText? "so".toList = none := by decide +kernel
  have hsl : Mnemonic.ofText? "sl".toList = none := by decide +kernel
  have hregisters : ∀ name ∈ ["so", "sl"], Pass.registerNames.contains
      (String.ofList (Text.lowercase name.toList)) = false := by
    decide +kernel
  obtain ⟨hso', hsl'⟩ := List.forall_mem_cons.mp hregisters
  replace hsl' := List.forall_mem_singleton.mp hsl'
  simp only [Pass.nameWarning?, hso, hsl, hso', hsl', Option.any_none, Bool.false_eq_true, if_false,
    and_self]

theorem legible_labelled (hname : '\n' ∉ file.toList) (ho : offset.Denotes o)
    (hl : Option.Rel Expr.Denotes length l) : ∀ d ∈ labelled file offset length, d.Legible := by
  obtain ⟨hso, hsl⟩ := legible_labels
  have hsymbol {s : Symbol} (hs : s.Legible) : (Expr.symbol s).Legible := by rwa [Expr.Legible]
  refine List.forall_mem_cons.mpr ⟨.part hname (hsymbol hso) ?_, ?_⟩
  · cases hl with
    | none => simp
    | some he => simpa using hsymbol hsl
  · refine List.forall_mem_cons.mpr ⟨.constant hso ho.legible, ?_⟩
    cases hl with
    | none => simp
    | some he => simpa using Directive.Legible.constant hsl he.legible

/-- Bounds that are labels wait for their values. -/
theorem makes_labelled (hfile : fs.read (Path.join directory file) = .ok bytes) (offset : Expr)
    (length : Option Expr) :
    List.Forall₂ (Directive.Makes fs directory) (labelled file offset length)
      (labelledItems bytes offset length) := by
  refine .cons (fun load location r => ?_) (.cons (fun _ _ _ => rfl) ?_)
  · rw [Directive.perform_part hfile]
    cases length <;> rfl
  · cases length with
    | none => exact .nil
    | some e => exact .cons (fun _ _ _ => rfl) .nil

theorem constants_labelled (bytes : List UInt8) (offset : Expr) (length : Option Expr) :
    (labelledItems bytes offset length).filterMap Item.constant? =
      "so" :: (length.map fun _ => "sl").toList := by
  cases length <;> rfl

theorem plain_labelled (cpu : Cpu) {program : Program} (ho : offset.Denotes o)
    (hl : Option.Rel Expr.Denotes length l)
    (hitems : (program.leaves.map (·.2.item)).Perm (labelledItems bytes offset length)) :
    program.Plain cpu (labelValues o l) := by
  obtain ⟨hso, hsl⟩ := nameWarning?_labels cpu
  have hsymbol {name : String} {names : List String} (hmem : name ∈ names) :
      (Expr.symbol (.global name)).Defined names := by
    intro ν hν
    obtain ⟨v, hv⟩ := Option.isSome_iff_exists.mp (hν name hmem)
    exact ⟨v, Expr.evaluate_symbol hv⟩
  refine Program.plain_of_perm hitems ?_ ?_ ?_
  · -- The range is between two names, and both of them are defined by constants.
    rw [constants_labelled]
    have hbounds : (labelledLength bytes.length length).Defined
        ("so" :: (length.map fun _ => "sl").toList) := by
      cases length with
      | some e => exact hsymbol (by simp)
      | none =>
        intro ν hν
        obtain ⟨v, hv⟩ := hsymbol List.mem_cons_self ν hν
        exact ⟨_, Expr.evaluate_subtract _ hv⟩
    refine List.forall_mem_cons.mpr ⟨.byteRange _ (hsymbol List.mem_cons_self) hbounds, ?_⟩
    refine List.forall_mem_cons.mpr ⟨.constant ho.hardcoded ho.evaluate, ?_⟩
    cases hl with
    | none => simp
    | some he =>
      refine List.forall_mem_singleton.mpr (.constant he.hardcoded ?_)
      exact he.evaluate
  · rw [constants_labelled]
    cases length <;> simp
  · rw [constants_labelled]
    refine List.forall_mem_cons.mpr ⟨hso, ?_⟩
    cases length <;> simp [hsl]

/-- The length of a part of a file whose bounds are labels cuts out what the length would. -/
theorem evaluate_labelledLength {ν : Valuation} (hl : Option.Rel Expr.Denotes length l)
    (hsize : l = none → bytes.length < 2 ^ 63)
    (hν : ∀ name ∈ "so" :: (length.map fun _ => "sl").toList,
      ν.lookup (.global name) = some (labelValues o l name)) :
    ∃ v, (labelledLength bytes.length length).evaluate ν = .ok v ∧
      boundsFault? bytes.length o (some v) = boundsFault? bytes.length o l ∧
      (boundsFault? bytes.length o l = none →
        filePart bytes o (some v) = filePart bytes o l) := by
  cases hl with
  | @some e l he =>
    have hlookup := hν "sl" (by simp)
    exact ⟨l, Expr.evaluate_symbol hlookup, rfl, fun _ => rfl⟩
  | none =>
    have hlookup := hν "so" List.mem_cons_self
    exact ⟨Int64.ofNat bytes.length - o, Expr.evaluate_subtract _ (Expr.evaluate_symbol hlookup),
      bounds_of_rest (hsize rfl)⟩

/-- **Part of a file whose bounds are labels** is cut out when its bytes are written, in whichever
order the part and the labels stand. -/
theorem ofSources_labelled (options : Options) (stdin : Except FileError (List UInt8))
    (source : String) (hname : '\n' ∉ file.toList)
    (hfile : fs.read (Path.join directory file) = .ok bytes) (ho : offset.Denotes o)
    (hl : Option.Rel Expr.Denotes length l) (hsize : l = none → bytes.length < 2 ^ 63)
    {ds : List Directive} (hds : ds.Perm (labelled file offset length)) :
    (∀ fault, boundsFault? bytes.length o l = some fault → ∃ location,
        (ofSources options fs stdin [.text source
          (ds.flatMap Directive.text) directory]).diagnostics =
            ⟨[⟨location, .emission fault.whenWritten⟩], []⟩) ∧
      (boundsFault? bytes.length o l = none →
        (ofSources options fs stdin [.text source
            (ds.flatMap Directive.text) directory]).diagnostics = {} ∧
          (ofSources options fs stdin [.text source
            (ds.flatMap Directive.text) directory]).image.bytes.toList =
              filePart bytes o l) := by
  -- The lines are read in their own order, and their statements are those of the other order.
  obtain ⟨items, hmakes, hperm⟩ :=
    List.perm_comp_forall₂ hds (makes_labelled hfile offset length)
  have hlegible : ∀ d ∈ ds, d.Legible := fun d hd =>
    legible_labelled hname ho hl d (hds.mem_iff.mp hd)
  obtain ⟨hdiagnostics, hitems⟩ :=
    Directive.read_of_makes options.cpu stdin source hlegible hmakes
  rw [← hitems] at hperm
  rw [ofSources_eq, hdiagnostics]
  generalize (Source.read options.cpu fs stdin [.text source (ds.flatMap Directive.text)
    directory]).program = program at hperm
  have hlabels : ∀ i ∈ Item.label (.global "so") offset ::
      (length.map (Item.label (.global "sl"))).toList, i.constant?.isNone = false := by
    refine List.forall_mem_cons.mpr ⟨rfl, ?_⟩
    cases length <;> simp [Item.constant?]
  obtain ⟨t, id, location, hsettled, hwritten⟩ :=
    ofProgram_single (plain_labelled options.cpu ho hl hperm) hperm rfl hlabels
  -- The labels have their values, and so have the bounds.
  have hvalues : ∀ name ∈ "so" :: (length.map fun _ => "sl").toList,
      (Context.knowing options.cpu t 0).env.valuation.lookup (.global name) =
        some (labelValues o l name) := by
    intro name hmem
    have hconstants := hperm.filterMap Item.constant?
    rw [constants_labelled, List.filterMap_map] at hconstants
    exact hsettled name (hconstants.mem_iff.mpr hmem)
  obtain ⟨v, hlength, hsame, hpart⟩ := evaluate_labelledLength hl hsize hvalues
  have hoffset : (Context.knowing options.cpu t 0).evaluate (.symbol (.global "so")) = .ok o :=
    Expr.evaluate_symbol (hvalues "so" List.mem_cons_self)
  have hends := Pass.emit_byteRange hoffset hlength program.size false id location bytes
  rw [hsame] at hends
  constructor
  · intro fault hfault
    rw [hfault] at hends
    exact ⟨location, (hwritten _ _ hends).1⟩
  · intro hbounds
    rw [hbounds] at hends
    obtain ⟨hclean, hbytes⟩ := hwritten _ _ hends
    exact ⟨hclean, hbytes.trans (hpart hbounds)⟩

/-- **Both ways to include part of a file agree.** Every value is that of a constant expression. Let
`offset` and `length` be constant expressions with the values `o` and `l`, or let there be no
length; then the size of the file has to be a value, as that of a file in memory is. Assemble the
line that includes the part with these bounds. Assemble also, in any order, the line that includes
it with the labels `so` and `sl` for bounds and the lines that define these labels. If nothing is
wrong with the bounds then both are assembled without a fault, to the bytes between the bounds.
Otherwise both have one fault, in the one case of the line, in the other of its bytes, and what is
wrong with the bounds is the same. -/
theorem incbin_agrees (options : Options) (fs : FileSystem)
    (stdin : Except FileError (List UInt8)) (source directory file : String) (bytes : List UInt8)
    (hname : '\n' ∉ file.toList) (hfile : fs.read (Path.join directory file) = .ok bytes) :
    (∀ v : Value, ∃ e : Expr, e.Denotes v) ∧
      ∀ (o : Value) (l : Option Value), (l = none → bytes.length < 2 ^ 63) →
        ∀ (offset : Expr) (length : Option Expr), offset.Denotes o →
          Option.Rel Expr.Denotes length l →
            ∀ ds : List Directive, ds.Perm (labelled file offset length) →
              let early := ofSources options fs stdin
                [.text source (Directive.part file offset length).text directory]
              let late := ofSources options fs stdin
                [.text source (ds.flatMap Directive.text) directory]
              match boundsFault? bytes.length o l with
              | none => early.diagnostics = {} ∧ late.diagnostics = {} ∧
                  early.image.bytes.toList = filePart bytes o l ∧
                  late.image.bytes.toList = filePart bytes o l
              | some fault =>
                (∃ place, early.diagnostics = ⟨[⟨place, .parse fault.whenRead⟩], []⟩) ∧
                  ∃ place, late.diagnostics = ⟨[⟨place, .emission fault.whenWritten⟩], []⟩ := by
  refine ⟨Expr.exists_denotes, fun o l hsize offset length ho hl ds hds => ?_⟩
  intro early late
  have hlate := ofSources_labelled options stdin source hname hfile ho hl hsize hds
  cases hbounds : boundsFault? bytes.length o l with
  | some fault =>
    refine ⟨?_, hlate.1 fault hbounds⟩
    exact ofSources_constant_of_fault options stdin source hname hfile ho hl hbounds
  | none =>
    obtain ⟨hclean, hbytes⟩ :=
      ofSources_constant options stdin source hname hfile ho hl hbounds
    obtain ⟨hclean', hbytes'⟩ := hlate.2 hbounds
    exact ⟨hclean, hclean', hbytes, hbytes'⟩

/-- Three bytes in one file. -/
def threeBytes : FileSystem where
  canonical? path := if path = "f" then some "f" else none
  read path := if path = "f" then .ok [10, 20, 30] else .error .notFound
  files := ["f"]
  canonical_mem path bytes h := by
    by_cases hpath : path = "f"
    · exact ⟨"f", List.mem_singleton_self _, if_pos hpath⟩
    · simp [hpath] at h

/-- Behind the first byte there are two more, and no more than these. -/
theorem incbin_agrees_threeBytes :
    let run (text : String) := ofSources {} threeBytes (.ok []) [.text "main" text.toList ""]
    (run ".incbin \"f\", 1\n").image.bytes.toList = [20, 30] ∧
      (run ".alias so 1\n.incbin \"f\", so\n").image.bytes.toList = [20, 30] ∧
      (∃ place, (run ".incbin \"f\", 1, 9223372036854775807\n").diagnostics =
        ⟨[⟨place, .parse .lengthTooLong⟩], []⟩) ∧
      ∃ place, (run (".incbin \"f\", so, sl\n.alias so 1\n" ++
        ".alias sl 9223372036854775807\n")).diagnostics =
          ⟨[⟨place, .emission .fileTooSmall⟩], []⟩ := by
  have hone : Expr.Denotes (.constant 1) 1 := ⟨by rw [Expr.Legible]; decide, rfl, fun _ => rfl⟩
  have hmax : Expr.Denotes (.constant Int64.maxValue) Int64.maxValue :=
    ⟨by rw [Expr.Legible]; decide, rfl, fun _ => rfl⟩
  have hfile : threeBytes.read (Path.join "" "f") = .ok [10, 20, 30] := by decide +kernel
  have hagrees := (incbin_agrees {} threeBytes (.ok []) "main" "" "f" [10, 20, 30] (by decide)
    hfile).2
  have hrest := hagrees 1 none (fun _ => by decide) (.constant 1) none hone .none _
    (.swap (Directive.part "f" (.symbol (.global "so")) none)
      (Directive.constant "so" (.constant 1)) [])
  have hlong := hagrees 1 (some Int64.maxValue) (by simp) (.constant 1)
    (some (.constant Int64.maxValue)) hone (.some hmax) _ (.refl _)
  -- What the bounds are, and how the lines are written.
  have hinside : boundsFault? ([10, 20, 30] : List UInt8).length 1 none = none ∧
      filePart [10, 20, 30] 1 none = [20, 30] := by decide
  have houtside : boundsFault? ([10, 20, 30] : List UInt8).length 1 (some Int64.maxValue) =
      some .tooLong := by decide
  have htexts : (Directive.part "f" (.constant 1) none).text = ".incbin \"f\", 1\n".toList ∧
      [Directive.constant "so" (.constant 1), .part "f" (.symbol (.global "so")) none].flatMap
        Directive.text = ".alias so 1\n.incbin \"f\", so\n".toList := by
    decide +kernel
  have hlongTexts : (Directive.part "f" (.constant 1) (some (.constant Int64.maxValue))).text =
        ".incbin \"f\", 1, 9223372036854775807\n".toList ∧
      (labelled "f" (.constant 1) (some (.constant Int64.maxValue))).flatMap Directive.text =
        (".incbin \"f\", so, sl\n.alias so 1\n" ++ ".alias sl 9223372036854775807\n").toList := by
    decide +kernel
  dsimp only at hrest hlong ⊢
  rw [hinside.1, hinside.2, htexts.1, htexts.2] at hrest
  rw [houtside, hlongTexts.1, hlongTexts.2] at hlong
  exact ⟨hrest.2.2.1, hrest.2.2.2, hlong.1, hlong.2⟩

end Ways

end Assembly

end Assembler6502
