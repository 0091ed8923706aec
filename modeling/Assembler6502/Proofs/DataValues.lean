import Assembler6502.Proofs.Arithmetic
import Assembler6502.Proofs.Offsets

/-!
# Data can be read back

Data is written value by value, each in the same number of bytes, so the bytes fall into groups, and
a group is the number that was written. A value that the width does not hold is written as zero and
reported once; an expression without a value is reported by its evaluation and counts as zero. In
both cases the values around it are written as if nothing had happened, because a report changes
nothing that a value depends on, and the program counter only moves behind the last value.

A word is its low byte and its high byte, so it can be written as two bytes.

## Main definitions

* `Endian.number`, `Width.numbers`: the number that a group of bytes makes, and those of all groups
* `Context.stored`, `Context.dataFaults`: what is stored for an expression, and what is reported

## Main results

* `Width.numbers_flatMap_encode`: numbers that fit are read back
* `Pass.data_read_back`: data that is written can be read back
-/

namespace Assembler6502

/-! ## Groups of bytes -/

/-- The number that the bytes of a datum make. -/
def Endian.number : Endian → List UInt8 → Nat
  | little, bytes => Disassembly.unsigned bytes
  | big, bytes => Disassembly.unsigned bytes.reverse

namespace Width

variable {width : Width} {endian : Endian}

/-- The numbers that some bytes make in groups of a width. -/
def numbers (width : Width) (endian : Endian) (bytes : List UInt8) : List Nat :=
  (List.range (bytes.length / width.bytes)).map fun i =>
    endian.number ((bytes.drop (i * width.bytes)).take width.bytes)

theorem bytes_pos (width : Width) : 0 < width.bytes := by
  cases width <;> decide

theorem toInt_maxValue (width : Width) : width.maxValue.toInt = 256 ^ width.bytes - 1 := by
  cases width <;> decide

/-- The first group stands before the others. -/
theorem numbers_append {first : List UInt8} (h : first.length = width.bytes)
    (rest : List UInt8) :
    width.numbers endian (first ++ rest) = endian.number first :: width.numbers endian rest := by
  have hcount : (first ++ rest).length / width.bytes = rest.length / width.bytes + 1 := by
    rw [List.length_append, h, Nat.add_div_left _ width.bytes_pos]
  rw [numbers, hcount, List.range_succ_eq_map, List.map_cons, List.map_map]
  congr 1
  · rw [Nat.zero_mul, List.drop_zero, ← h, List.take_left]
  · refine List.map_congr_left fun i _ => ?_
    have hdrop : (first ++ rest).drop (i.succ * width.bytes) = rest.drop (i * width.bytes) := by
      rw [Nat.succ_mul, Nat.add_comm, ← h, List.drop_append]
      simp
    simp only [Function.comp_apply, hdrop]

theorem number_encode {n : Nat} (h : n < 256 ^ width.bytes) :
    endian.number (width.encode endian n) = n := by
  cases endian with
  | little =>
    rw [Endian.number, encode, Disassembly.unsigned_littleEndian, Nat.mod_eq_of_lt h]
  | big =>
    rw [Endian.number, encode, List.reverse_reverse, Disassembly.unsigned_littleEndian,
      Nat.mod_eq_of_lt h]

theorem length_flatMap_encode (ns : List Nat) :
    (ns.flatMap (width.encode endian)).length = width.bytes * ns.length := by
  induction ns with
  | nil => rfl
  | cons n rest ih =>
    rw [List.flatMap_cons, List.length_append, length_encode, ih, List.length_cons, Nat.mul_succ,
      Nat.add_comm]

/-- **Numbers that fit are read back** from their bytes. -/
theorem numbers_flatMap_encode {ns : List Nat} (h : ∀ n ∈ ns, n < 256 ^ width.bytes) :
    width.numbers endian (ns.flatMap (width.encode endian)) = ns := by
  induction ns with
  | nil => simp [numbers]
  | cons n rest ih =>
    obtain ⟨hn, hrest⟩ := List.forall_mem_cons.mp h
    rw [List.flatMap_cons, numbers_append (length_encode width endian n), number_encode hn,
      ih hrest]

theorem fits_iff {v : Value} : width.fits v = true ↔ 0 ≤ v ∧ v ≤ width.maxValue := by
  rw [fits, Bool.and_eq_true, decide_eq_true_eq, decide_eq_true_eq]

/-- A value that a width holds is smaller than the first number with more bytes. -/
theorem toNat_lt_of_le {v : Value} (hle : 0 ≤ v ∧ v ≤ width.maxValue) :
    v.toInt.toNat < 256 ^ width.bytes := by
  obtain ⟨hlow, hhigh⟩ := hle
  rw [Int64.le_iff_toInt_le] at hlow hhigh
  rw [toInt_maxValue] at hhigh
  have hzero : (0 : Value).toInt = 0 := rfl
  rw [hzero] at hlow
  rw [Int.toNat_lt hlow]
  push_cast
  omega

end Width

/-! ## What a value writes and reports -/

namespace Context

/-- What is stored for an expression: its value if the width holds it, and zero otherwise. -/
def stored (c : Context) (width : Width) (e : Expr) : Nat :=
  match c.evaluate e with
  | .ok v => if 0 ≤ v ∧ v ≤ width.maxValue then v.toInt.toNat else 0
  | .error _ => 0

/-- What is reported of an expression: that it has no value, or that the width does not hold it. -/
def dataFaults (c : Context) (location : Location) (width : Width) (e : Expr) :
    List (Located Fault) :=
  match c.evaluate e with
  | .ok v =>
    if 0 ≤ v ∧ v ≤ width.maxValue then []
    else [⟨location, .emission (.valueOutOfRange width e.text)⟩]
  | .error err => [⟨location, .evaluation err⟩]

/-- Some faults are reported and nothing else happens. -/
def report (c : Context) (faults : List (Located Fault)) : Context :=
  { c with diagnostics.errors := c.diagnostics.errors ++ faults }

theorem report_nil (c : Context) : c.report [] = c := by
  simp [report]

theorem report_append (c : Context) (first second : List (Located Fault)) :
    c.report (first ++ second) = (c.report first).report second := by
  simp [report]

theorem stored_lt (c : Context) (width : Width) (e : Expr) :
    c.stored width e < 256 ^ width.bytes := by
  have hpos : 0 < 256 ^ width.bytes := Nat.pow_pos (by decide)
  unfold stored
  split
  · split
    · rename_i hle
      exact Width.toNat_lt_of_le hle
    · exact hpos
  · exact hpos

end Context

namespace Pass

variable {s : Sweep Image} {location : Location} {width : Width} {endian : Endian} {e : Expr}

/-- A value is asked for, and what is wrong with it is reported. -/
theorem checkedValue_eq (s : Sweep Image) (location : Location) (width : Width) (e : Expr) :
    checkedValue s location width e =
      (s.context.stored width e,
        { s with context := s.context.report (s.context.dataFaults location width e) }) := by
  unfold checkedValue Sweep.valueOf Context.valueOf Context.stored Context.dataFaults
  cases s.context.evaluate e with
  | ok v =>
    by_cases hle : 0 ≤ v ∧ v ≤ width.maxValue
    · simp only [Width.fits_iff.mpr hle, if_pos hle, if_true, Context.report_nil]
    · simp only [mt Width.fits_iff.mp hle, if_neg hle]
      rfl
  | error err =>
    -- Zero is what is left of the expression, and zero fits into every width.
    have hzero : width.fits 0 = true := by cases width <;> rfl
    simp only [hzero, if_true]
    rfl

/-- **One value** writes its bytes and is reported if there is something wrong with it. -/
theorem emitValue_of_writable (hw : s.context.env.writable = true) (endian : Endian) (e : Expr) :
    emitValue s location width endian e =
      { s with
        context := s.context.report (s.context.dataFaults location width e)
        memory.bytes := s.memory.bytes ++ width.encode endian (s.context.stored width e) } := by
  simp only [emitValue, checkedValue_eq]
  exact @write_of_writable { s with context := s.context.report _ } location hw _

/-- **All values** are written as each of them would be alone, one behind the other. -/
theorem foldl_emitValue (hw : s.context.env.writable = true) (endian : Endian)
    (values : List Expr) :
    values.foldl (fun s e => emitValue s location width endian e) s =
      { s with
        context := s.context.report (values.flatMap (s.context.dataFaults location width))
        memory.bytes := s.memory.bytes ++
          (values.map (s.context.stored width)).flatMap (width.encode endian) } := by
  induction values generalizing s with
  | nil => simp [Context.report_nil]
  | cons e rest ih =>
    rw [List.foldl_cons, emitValue_of_writable hw]
    -- The reports and the bytes of the first value do not matter to the others.
    refine (ih (s := { s with
      context := s.context.report (s.context.dataFaults location width e)
      memory.bytes := s.memory.bytes ++ width.encode endian (s.context.stored width e) }) hw).trans
      ?_
    rw [List.flatMap_cons, Context.report_append, List.map_cons, List.flatMap_cons]
    have hbytes (first second : List UInt8) :
        s.memory.bytes ++ first ++ second = s.memory.bytes ++ (first ++ second) := by
      apply Array.toList_inj.mp
      simp
    simp only [hbytes]
    rfl

/-- **Data** is written and reported value by value, and then counted as a whole. -/
theorem emitData_of_writable (hw : s.context.env.writable = true) (location : Location)
    (width : Width) (endian : Endian) (values : List Expr) :
    emitData s location width endian values =
      { s with
        context := (s.context.report (values.flatMap (s.context.dataFaults location width))).mapEnv
          (·.advancePc (Int64.ofNat (width.bytes * values.length)))
        memory.bytes := s.memory.bytes ++
          (values.map (s.context.stored width)).flatMap (width.encode endian)
        memory.stats.data := s.memory.stats.data + width.bytes * values.length } := by
  simp only [emitData, foldl_emitValue hw]
  rfl

/-! ## Words as bytes -/

theorem encode_word (n : Nat) : Width.word.encode .little n =
    Width.byte.encode .little (n % 256) ++ Width.byte.encode .little (n / 256) := by
  have hlow : UInt8.ofNat (n % 256) = UInt8.ofNat n := by
    rw [← UInt8.toNat_inj, UInt8.toNat_ofNat', UInt8.toNat_ofNat']
    omega
  simp [Width.encode, Width.bytes, littleEndian, hlow]

theorem stored_of_evaluate {c : Context} {v : Value} (location : Location)
    (hv : c.evaluate e = .ok v) (hle : 0 ≤ v ∧ v ≤ width.maxValue) :
    c.stored width e = v.toInt.toNat ∧ c.dataFaults location width e = [] := by
  simp only [Context.stored, Context.dataFaults, hv, if_pos hle, and_self]

theorem byte_le {b : Value} {n : Int} (h : b.toInt = Value.wrap (n % 256)) :
    (0 ≤ b ∧ b ≤ Width.byte.maxValue) ∧ b.toInt = n % 256 := by
  have hwrap : Value.wrap (n % 256) = n % 256 := Int.bmod_eq_of_le (by omega) (by omega)
  have hmax : Width.byte.maxValue.toInt = 255 := rfl
  have hzero : (0 : Value).toInt = 0 := rfl
  rw [Int64.le_iff_toInt_le, Int64.le_iff_toInt_le, h, hwrap, hmax, hzero]
  omega

/-- **A word is its low byte and its high byte**: writing them comes to the same. -/
theorem emitData_bytes_of_word (hw : s.context.env.writable = true) {v : Value}
    (hv : s.context.evaluate e = .ok v) (hle : 0 ≤ v ∧ v ≤ Width.word.maxValue)
    (location : Location) :
    emitData s location .byte .little [.lowByte e, .highByte e] =
      emitData s location .word .little [e] := by
  have hlow : s.context.evaluate (.lowByte e) = .ok (v &&& 0xff) := by
    rw [Context.evaluate] at hv ⊢
    rw [Expr.evaluate, hv]
    rfl
  have hhigh : s.context.evaluate (.highByte e) = .ok ((v >>> 8) &&& 0xff) := by
    rw [Context.evaluate] at hv ⊢
    rw [Expr.evaluate, hv]
    rfl
  obtain ⟨hlowFits, hlowByte⟩ := byte_le (Value.toInt_lowByte v)
  obtain ⟨hhighFits, hhighByte⟩ := byte_le (Value.toInt_highByte v)
  obtain ⟨hlowStored, hlowFaults⟩ := stored_of_evaluate location hlow hlowFits
  obtain ⟨hhighStored, hhighFaults⟩ := stored_of_evaluate location hhigh hhighFits
  obtain ⟨hstored, hfaults⟩ := stored_of_evaluate location hv hle
  -- The number of the word is split as its value is.
  have hlt : v.toInt.toNat < 256 ^ 2 := Width.toNat_lt_of_le hle
  have hnonneg : 0 ≤ v.toInt := Int64.le_iff_toInt_le.mp hle.1
  have hlowNumber : (v &&& 0xff).toInt.toNat = v.toInt.toNat % 256 := by
    rw [hlowByte]
    omega
  have hhighNumber : ((v >>> 8) &&& 0xff).toInt.toNat = v.toInt.toNat / 256 := by
    rw [hhighByte]
    omega
  have hbytes : Width.byte.encode .little (s.context.stored .byte (.lowByte e)) ++
      Width.byte.encode .little (s.context.stored .byte (.highByte e)) =
        Width.word.encode .little (s.context.stored .word e) := by
    rw [hlowStored, hhighStored, hstored, encode_word, hlowNumber, hhighNumber]
  rw [emitData_of_writable hw, emitData_of_writable hw]
  simp only [List.flatMap_cons, List.flatMap_nil, List.map_cons, List.map_nil, List.append_nil,
    hlowFaults, hhighFaults, hfaults, hbytes]
  rfl

/-! ## Data -/

/-- **Data that is written can be read back.** Where the segment takes bytes, data of any width and
byte order adds exactly as many bytes as its width and the number of its values say. Read back in
groups of this width and order they are, expression by expression, its value if the width holds it,
and zero otherwise. What is reported is, expression by expression, nothing if the width holds its
value, once that the value is out of range if it does not, and why it has no value if it has none.
In particular a word is written by its low byte and its high byte as it is by itself. -/
theorem data_read_back (s : Sweep Image) (hw : s.context.env.writable = true) (id : Nat)
    (location : Location) (width : Width) (endian : Endian) (values : List Expr) :
    let written := (emit s id ⟨location, .data width endian values⟩).1
    (∃ bytes : List UInt8,
        written.memory.bytes.toList = s.memory.bytes.toList ++ bytes ∧
        bytes.length = width.bytes * values.length ∧
        width.numbers endian bytes = values.map (s.context.stored width)) ∧
      written.context.diagnostics.errors = s.context.diagnostics.errors ++
        values.flatMap (s.context.dataFaults location width) ∧
      ∀ e v, s.context.evaluate e = .ok v → 0 ≤ v → v ≤ 0xffff →
        (emit s id ⟨location, .data .byte .little [.lowByte e, .highByte e]⟩).1 =
          (emit s id ⟨location, .data .word .little [e]⟩).1 := by
  intro written
  have hwritten : written = emitData s location width endian values := rfl
  rw [hwritten, emitData_of_writable hw]
  refine ⟨⟨(values.map (s.context.stored width)).flatMap (width.encode endian), by simp, ?_, ?_⟩,
    rfl, fun e v hv hlow hhigh => emitData_bytes_of_word hw hv ⟨hlow, hhigh⟩ location⟩
  · rw [Width.length_flatMap_encode, List.length_map]
  · refine Width.numbers_flatMap_encode fun n hn => ?_
    obtain ⟨e, -, rfl⟩ := List.mem_map.mp hn
    exact s.context.stored_lt width e

/-- Values around both ends of the range of a word, and a label that is not defined. -/
def aroundWords : List Expr :=
  [.constant 0xffff, .constant 0x10000, .constant (-1), .symbol (.global "none"), .constant 0x102]

theorem data_read_back_aroundWords :
    let s : Sweep Image := { context := { cpu := .mos6502 }, size := 1, memory := {} }
    let written := (emit s 0 ⟨.topLevel, .data .word .big aroundWords⟩).1
    s.context.env.writable = true ∧
      (∃ bytes, written.memory.bytes.toList = bytes ∧ bytes.length = 10 ∧
        Width.word.numbers .big bytes = [0xffff, 0, 0, 0, 0x102]) ∧
      written.context.diagnostics.errors =
        [⟨.topLevel, .emission (.valueOutOfRange .word "65536")⟩,
          ⟨.topLevel, .emission (.valueOutOfRange .word "-1")⟩,
          ⟨.topLevel, .evaluation (.unknownLabel (.global "none"))⟩] ∧
      (emit s 0 ⟨.topLevel, .data .byte .little
          [.lowByte (.constant 0x102), .highByte (.constant 0x102)]⟩).1 =
        (emit s 0 ⟨.topLevel, .data .word .little [.constant 0x102]⟩).1 := by
  intro s written
  obtain ⟨⟨bytes, hbytes, hlength, hnumbers⟩, herrors, hword⟩ :=
    data_read_back s rfl 0 .topLevel .word .big aroundWords
  have hstored : aroundWords.map (s.context.stored .word) = [0xffff, 0, 0, 0, 0x102] := by decide
  have hfaults : aroundWords.flatMap (s.context.dataFaults .topLevel .word) =
      [⟨.topLevel, .emission (.valueOutOfRange .word "65536")⟩,
        ⟨.topLevel, .emission (.valueOutOfRange .word "-1")⟩,
        ⟨.topLevel, .evaluation (.unknownLabel (.global "none"))⟩] := by decide
  refine ⟨rfl, ⟨bytes, hbytes, hlength, hnumbers.trans hstored⟩, herrors.trans hfaults, ?_⟩
  exact hword (.constant 0x102) 0x102 rfl (by decide) (by decide)

end Pass
end Assembler6502
