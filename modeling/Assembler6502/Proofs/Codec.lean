import Mathlib.Algebra.Group.Int.Defs
import Mathlib.Algebra.Group.Nat.Defs
import Mathlib.Data.List.Nodup
import Assembler6502.Assembly
import Assembler6502.Disassembly
import Assembler6502.Proofs.Rounds

/-!
# Encoding and decoding

The last pass and the disassembly are inverse to each other on instructions whose operands can be
stored. Both sides meet in a description of their own: the bytes that an instruction has at an
address. The pass writes exactly these bytes, and the disassembly finds the instruction in them,
since no two encodings of a processor share an opcode and the bytes of a number tell the number.

## Main definitions

* `Mode.Takes`, `Mode.operandBytes`: the operands that can be stored at an address, and their bytes
* `Instruction.Encodable`, `Decoded.bytesAt`: the instructions that have bytes, and their bytes
* `Decoded.Fits`, `Decoded.image`, `Decoded.lines`: the same for a list at consecutive addresses

## Main results

* `Cpu.opcode?_eq_some_iff`, `Cpu.decode?_eq_some_iff`: opcodes stand for one operation each
* `Sweep.Ready.emit`: the last pass writes the bytes of an instruction
* `Disassembly.decodeLine_bytesAt`: the disassembly finds the instruction in its bytes
* `Workspace.emit_image`: the last pass writes the bytes of a list
* `Assembly.disassembly_undoes_assembly`: disassembling undoes assembling
-/

namespace Assembler6502

/-! ## Lists with keys -/

namespace Keyed

/-- Of a list without two entries of one key, a search by key finds the entry that has it. -/
theorem find?_eq_some_iff {α κ : Type} (key : α → κ) {k : κ} {p : α → Bool}
    (hp : ∀ b, p b = true ↔ key b = k) {a : α} :
    ∀ {l : List α}, (l.map key).Nodup → (l.find? p = some a ↔ a ∈ l ∧ key a = k)
  | [], _ => by simp
  | b :: l, h => by
    rw [List.map_cons, List.nodup_cons] at h
    have ih := find?_eq_some_iff key hp (a := a) h.2
    by_cases hb : key b = k
    · simp only [List.find?_cons, (hp b).2 hb, Option.some.injEq, List.mem_cons]
      refine ⟨fun hab => ⟨.inl hab.symm, hab ▸ hb⟩, ?_⟩
      rintro ⟨rfl | ha, hk⟩
      · rfl
      · exact absurd (List.mem_map.2 ⟨a, ha, hk.trans hb.symm⟩) h.1
    · have hpb : p b = false := Bool.eq_false_iff.2 fun h => hb ((hp b).1 h)
      have hne : a = b → ¬ key a = k := fun hab => hab ▸ hb
      simp only [List.find?_cons, hpb, ih, List.mem_cons]
      tauto

/-- Whether numbers differ from each other and from the bits of a mask. -/
def distinct (mask : Nat) : List Nat → Bool
  | [] => true
  | k :: ks => !mask.testBit k && distinct (mask ||| 1 <<< k) ks

theorem nodup_of_distinct {mask : Nat} {ks : List Nat} (h : distinct mask ks = true) :
    ks.Nodup ∧ ∀ k ∈ ks, mask.testBit k = false := by
  -- The mask has the bits of the numbers so far, so a number is new if its bit is not set.
  induction ks generalizing mask with
  | nil => simp
  | cons k ks ih =>
    simp only [distinct, Bool.and_eq_true, Bool.not_eq_true'] at h
    obtain ⟨hnodup, hmask⟩ := ih h.2
    have hfresh : ∀ j ∈ ks, mask.testBit j = false ∧ j ≠ k := by
      intro j hj
      have := hmask j hj
      simp only [Nat.testBit_or, Nat.testBit_shiftLeft, Bool.or_eq_false_iff] at this
      refine ⟨this.1, ?_⟩
      rintro rfl
      simp at this
    refine ⟨List.nodup_cons.2 ⟨fun hk => (hfresh k hk).2 rfl, hnodup⟩, ?_⟩
    rintro j (_ | ⟨_, hj⟩)
    · exact h.1
    · exact (hfresh j hj).1

end Keyed

/-! ## Opcodes -/

namespace Cpu

variable {cpu : Cpu} {m : Mnemonic} {mode : Mode} {opcode : UInt8}

theorem nodup_opcode (cpu : Cpu) : (cpu.encodings.map Encoding.opcode).Nodup := by
  have h : Keyed.distinct 0 (cpu.encodings.map Encoding.opcode |>.map UInt8.toNat) = true := by
    cases cpu <;> decide +kernel
  exact (Keyed.nodup_of_distinct h).1.of_map _

theorem nodup_operation (cpu : Cpu) :
    (cpu.encodings.map fun e => (e.mnemonic, e.mode)).Nodup := by
  have h : Keyed.distinct 0 (cpu.encodings.map (fun e => (e.mnemonic, e.mode)) |>.map
      fun e => 17 * e.1.ctorIdx + e.2.ctorIdx) = true := by
    cases cpu <;> decide +kernel
  exact (Keyed.nodup_of_distinct h).1.of_map _

theorem decode?_eq_some_iff :
    cpu.decode? opcode = some (m, mode) ↔ ⟨m, mode, opcode⟩ ∈ cpu.encodings := by
  simp only [decode?, Option.map_eq_some_iff,
    Keyed.find?_eq_some_iff _ (fun _ => beq_iff_eq) cpu.nodup_opcode]
  constructor
  · rintro ⟨⟨m', mode', opcode'⟩, ⟨he, rfl⟩, h⟩
    cases h
    exact he
  · exact fun h => ⟨_, ⟨h, rfl⟩, rfl⟩

theorem opcode?_eq_some_iff :
    cpu.opcode? m mode = some opcode ↔ ⟨m, mode, opcode⟩ ∈ cpu.encodings := by
  have hkey (e : Encoding) : (e.mnemonic == m && e.mode == mode) = true ↔
      (e.mnemonic, e.mode) = (m, mode) := by simp
  simp only [opcode?, Option.map_eq_some_iff,
    Keyed.find?_eq_some_iff _ hkey cpu.nodup_operation]
  constructor
  · rintro ⟨⟨m', mode', opcode'⟩, ⟨he, h⟩, rfl⟩
    cases h
    exact he
  · exact fun h => ⟨_, ⟨h, rfl⟩, rfl⟩

end Cpu

/-! ## Numbers and bytes -/

namespace Value

theorem clamp_of_mem {n : Int} (h : -2 ^ 63 ≤ n ∧ n < 2 ^ 63) : clamp n = Int64.ofInt n := by
  have hmin : Int64.minValue.toInt = -2 ^ 63 := by decide
  have hmax : Int64.maxValue.toInt = 2 ^ 63 - 1 := by decide
  rw [clamp, if_neg (by omega), if_neg (by omega)]

theorem clamp_toNat (n : UInt16) : clamp n.toNat = Int64.ofNat n.toNat := by
  have := n.toNat_lt
  rw [clamp_of_mem (by omega), Int64.ofInt_eq_ofNat]

theorem toInt_clamp (n : Int) : (clamp n).toInt = max (-2 ^ 63) (min n (2 ^ 63 - 1)) := by
  have hmin : Int64.minValue.toInt = -2 ^ 63 := by decide
  have hmax : Int64.maxValue.toInt = 2 ^ 63 - 1 := by decide
  unfold clamp
  split
  · omega
  · split
    · omega
    · rw [Int64.toInt_ofInt_of_le (by omega) (by omega)]
      omega

theorem saturatingAdd_clamp (address size : Nat) (h : size < 2 ^ 63) :
    saturatingAdd (clamp address) (Int64.ofNat size) = clamp (address + size : Nat) := by
  have hsize : (Int64.ofNat size).toInt = size := Int64.toInt_ofNat_of_lt h
  rw [← Int64.toInt_inj, saturatingAdd, toInt_clamp, toInt_clamp, toInt_clamp, hsize]
  push_cast
  omega

end Value

namespace Disassembly

@[simp] theorem length_littleEndian : ∀ count n : Nat, (littleEndian count n).length = count
  | 0, _ => rfl
  | count + 1, n => by simp [littleEndian, length_littleEndian count]

theorem unsigned_lt : ∀ bytes : List UInt8, unsigned bytes < 256 ^ bytes.length
  | [] => by simp [unsigned]
  | b :: rest => by
    have ih := unsigned_lt rest
    have hb := b.toNat_lt
    simp only [unsigned, List.length_cons, Nat.pow_succ]
    omega

theorem unsigned_littleEndian : ∀ count n : Nat, unsigned (littleEndian count n) = n % 256 ^ count
  | 0, n => by simp [littleEndian, unsigned, Nat.mod_one]
  | count + 1, n => by
    rw [littleEndian, unsigned, unsigned_littleEndian count, Nat.pow_succ', Nat.mod_mul,
      UInt8.toNat_ofNat']

theorem littleEndian_mod : ∀ count n : Nat,
    littleEndian count (n % 256 ^ count) = littleEndian count n
  | 0, _ => rfl
  | count + 1, n => by
    have hlow : UInt8.ofNat (n % 256 ^ (count + 1)) = UInt8.ofNat n := by
      rw [← UInt8.toNat_inj, UInt8.toNat_ofNat', UInt8.toNat_ofNat', Nat.pow_succ',
        Nat.mod_mod_of_dvd _ (Nat.dvd_mul_right 256 _)]
    rw [littleEndian, littleEndian, hlow, Nat.pow_succ', Nat.mod_mul_right_div_self,
      littleEndian_mod count]

theorem littleEndian_unsigned : ∀ bytes : List UInt8,
    littleEndian bytes.length (unsigned bytes) = bytes
  | [] => rfl
  | b :: rest => by
    have hb := b.toNat_lt
    have hlow : UInt8.ofNat (b.toNat + 256 * unsigned rest) = b := by
      rw [← UInt8.toNat_inj, UInt8.toNat_ofNat']
      omega
    have hhigh : (b.toNat + 256 * unsigned rest) / 256 = unsigned rest := by omega
    rw [List.length_cons, unsigned, littleEndian, hlow, hhigh, littleEndian_unsigned rest]

/-- The lowest bytes of a word do not tell it from the word of its two's complement. -/
theorem toUInt64_mod {count : Nat} (hcount : count ≤ 8) (d : Value) :
    ((d.toUInt64.toNat % 256 ^ count : Nat) : Int) = d.toInt % (256 ^ count : Nat) := by
  have hdvd : ((256 ^ count : Nat) : Int) ∣ (2 ^ 64 : Nat) := by
    rw [show (2 : Nat) ^ 64 = 256 ^ 8 by decide]
    exact Int.natCast_dvd_natCast.2 (Nat.pow_dvd_pow 256 hcount)
  have hword : d.toInt % (2 ^ 64 : Nat) = d.toUInt64.toNat % (2 ^ 64 : Nat) := by
    rw [show d.toInt = Int.bmod d.toUInt64.toNat (2 ^ 64) from
      BitVec.toInt_eq_toNat_bmod _, Int.bmod_emod]
  rw [Int.natCast_emod, ← Int.emod_emod_of_dvd _ hdvd, ← hword, Int.emod_emod_of_dvd _ hdvd]

theorem signed_displacementBytes {count : Nat} (hcount : count ≤ 8) (d : Value) :
    signed (displacementBytes count d) = Int.bmod d.toInt (256 ^ count) := by
  rw [signed, displacementBytes, length_littleEndian, unsigned_littleEndian,
    toUInt64_mod hcount]
  exact Int.emod_bmod _ _

theorem displacementBytes_signed {bytes : List UInt8} (h : bytes.length ≤ 8) :
    displacementBytes bytes.length (Int64.ofInt (signed bytes)) = bytes := by
  have hdvd : 256 ^ bytes.length ∣ Int64.size := by
    rw [show Int64.size = 256 ^ 8 by decide]
    exact Nat.pow_dvd_pow 256 h
  have hmod : (Int64.ofInt (signed bytes)).toUInt64.toNat % 256 ^ bytes.length =
      unsigned bytes := by
    have hsigned : signed bytes % (256 ^ bytes.length : Nat) =
        unsigned bytes % (256 ^ bytes.length : Nat) := Int.bmod_emod
    apply Int.natCast_inj.1
    rw [toUInt64_mod h, Int64.toInt_ofInt, ← Int.bmod_emod, Int.bmod_bmod_of_dvd hdvd,
      Int.bmod_emod, hsigned, ← Int.natCast_emod, Nat.mod_eq_of_lt (unsigned_lt bytes)]
  rw [displacementBytes, ← littleEndian_mod, hmod, littleEndian_unsigned]

end Disassembly

/-! ## Operands and their bytes -/

namespace Mode

variable {mode : Mode} {address : Nat} {v : Value}

/-- Whether a value can be stored as the operand of an instruction at an address. The target of a
branch is an address whose displacement from the end of a branch of two bytes fits; every other
operand is an unsigned number of its size. -/
def Takes (mode : Mode) (address : Nat) (v : Value) : Prop :=
  if mode = .relative ∨ mode = .relativeWord then
    (0 ≤ v.toInt ∧ v.toInt ≤ 0xffff) ∧
      -2 ^ (8 * mode.operandSize - 1) ≤ v.toInt - (address + 2) ∧
      v.toInt - (address + 2) < 2 ^ (8 * mode.operandSize - 1)
  else 0 ≤ v.toInt ∧ v.toInt < 2 ^ (8 * mode.operandSize)

instance : Decidable (mode.Takes address v) :=
  inferInstanceAs (Decidable (if mode = .relative ∨ mode = .relativeWord then _ ∧ _ ∧ _ else _ ∧ _))

/-- The bytes of an operand behind an opcode at an address. -/
def operandBytes (mode : Mode) (address : Nat) (v : Value) : List UInt8 :=
  if mode = .relative ∨ mode = .relativeWord then
    displacementBytes mode.operandSize (Int64.ofInt (v.toInt - (address + 2)))
  else littleEndian mode.operandSize v.toInt.toNat

theorem operandSize_le (mode : Mode) : mode.operandSize ≤ 2 := by
  cases mode <;> decide

@[simp] theorem length_operandBytes :
    (mode.operandBytes address v).length = mode.operandSize := by
  unfold operandBytes displacementBytes
  split <;> exact Disassembly.length_littleEndian _ _

theorem Takes.nonneg (h : mode.Takes address v) : 0 ≤ v.toInt := by
  unfold Takes at h
  split at h
  · exact h.1.1
  · exact h.1

/-- The displacement of a target that a branch takes is small. -/
theorem Takes.displacement (h : mode.Takes address v)
    (hrel : mode = .relative ∨ mode = .relativeWord) :
    (0 ≤ v.toInt ∧ v.toInt ≤ 0xffff) ∧
      -0x8000 ≤ v.toInt - (address + 2) ∧ v.toInt - (address + 2) ≤ 0x7fff ∧
      Int.bmod (v.toInt - (address + 2)) (256 ^ mode.operandSize) = v.toInt - (address + 2) := by
  rw [Takes, if_pos hrel] at h
  obtain ⟨hv, hback, hforth⟩ := h
  obtain rfl | rfl := hrel <;> simp only [operandSize] at hback hforth ⊢ <;>
    exact ⟨hv, by omega, by omega, Int.bmod_eq_of_le (by omega) (by omega)⟩

theorem Takes.unsigned (h : mode.Takes address v)
    (hrel : ¬ (mode = .relative ∨ mode = .relativeWord)) :
    (v.toInt.toNat : Int) = v.toInt ∧ v.toInt.toNat < 256 ^ mode.operandSize := by
  rw [Takes, if_neg hrel] at h
  have hv := Int.toNat_of_nonneg h.1
  refine ⟨hv, ?_⟩
  apply Int.ofNat_lt.1
  rw [hv, show (256 : Nat) = 2 ^ 8 from rfl, ← Nat.pow_mul]
  exact_mod_cast h.2

end Mode

namespace Disassembly

variable {mode : Mode} {address : Nat} {v : Value} {bytes : List UInt8}

theorem operand?_relative (hrel : mode = .relative ∨ mode = .relativeWord) (hne : bytes ≠ []) :
    operand? mode address bytes =
      some (.constant (Int64.ofInt ((address + 2 + signed bytes) % 0x10000))) := by
  simp [operand?, hrel, hne]

theorem operand?_plain (hrel : ¬ (mode = .relative ∨ mode = .relativeWord)) (hne : bytes ≠ []) :
    operand? mode address bytes = some (.constant (Int64.ofNat (unsigned bytes))) := by
  simp [operand?, hrel, hne]

/-- An operand that can be stored is found in its bytes. -/
theorem operand?_operandBytes (hsize : mode.operandSize ≠ 0) (h : mode.Takes address v) :
    operand? mode address (mode.operandBytes address v) = some (.constant v) := by
  have hne : mode.operandBytes address v ≠ [] := by
    rw [← List.length_pos_iff, Mode.length_operandBytes]
    exact Nat.pos_of_ne_zero hsize
  have hcount := mode.operandSize_le
  by_cases hrel : mode = .relative ∨ mode = .relativeWord
  · obtain ⟨hv, hback, hforth, hmod⟩ := h.displacement hrel
    rw [operand?_relative hrel hne, Mode.operandBytes, if_pos hrel,
      signed_displacementBytes (by omega), Int64.toInt_ofInt_of_le (by omega) (by omega), hmod,
      show ((address : Int) + 2 + (v.toInt - (address + 2))) % 0x10000 = v.toInt by omega,
      Int64.ofInt_toInt]
  · obtain ⟨hv, hlt⟩ := h.unsigned hrel
    rw [operand?_plain hrel hne, Mode.operandBytes, if_neg hrel, unsigned_littleEndian,
      Nat.mod_eq_of_lt hlt, ← Int64.ofInt_eq_ofNat, hv, Int64.ofInt_toInt]

/-- Bytes behind an opcode are the bytes of the operand that is found in them, unless it is a target
that was wrapped around. -/
theorem operandBytes_of_operand? (hlength : bytes.length = mode.operandSize) (hne : bytes ≠ [])
    (htarget : (mode = .relative ∨ mode = .relativeWord) →
      0 ≤ address + 2 + signed bytes ∧ address + 2 + signed bytes ≤ 0xffff) :
    ∃ v, operand? mode address bytes = some (.constant v) ∧ mode.Takes address v ∧
      mode.operandBytes address v = bytes := by
  have hcount := mode.operandSize_le
  by_cases hrel : mode = .relative ∨ mode = .relativeWord
  · -- The target is in memory, so wrapping around has no effect on it.
    obtain ⟨hlow, hhigh⟩ := htarget hrel
    have hv : (Int64.ofInt (address + 2 + signed bytes)).toInt = address + 2 + signed bytes :=
      Int64.toInt_ofInt_of_le (by omega) (by omega)
    have hd : (address : Int) + 2 + signed bytes - (address + 2) = signed bytes := by omega
    refine ⟨Int64.ofInt (address + 2 + signed bytes), ?_, ?_, ?_⟩
    · rw [operand?_relative hrel hne, Int.emod_eq_of_lt hlow (by omega)]
    · rw [Mode.Takes, if_pos hrel, hv, hd]
      refine ⟨⟨hlow, hhigh⟩, ?_⟩
      rw [signed, hlength]
      obtain rfl | rfl := hrel
      all_goals exact ⟨Int.le_bmod (by decide), Int.bmod_lt (by decide)⟩
    · rw [Mode.operandBytes, if_pos hrel, hv, hd, ← hlength]
      exact displacementBytes_signed (by omega)
  · have hlt := unsigned_lt bytes
    have hpow : 256 ^ bytes.length ≤ 256 ^ 2 := Nat.pow_le_pow_right (by decide) (by omega)
    have hv : (Int64.ofNat (unsigned bytes)).toInt = unsigned bytes :=
      Int64.toInt_ofNat_of_lt (by omega)
    refine ⟨Int64.ofNat (unsigned bytes), operand?_plain hrel hne, ?_, ?_⟩
    · rw [Mode.Takes, if_neg hrel, hv, ← hlength, Int.pow_mul]
      exact ⟨Int.natCast_nonneg _, by exact_mod_cast hlt⟩
    · rw [Mode.operandBytes, if_neg hrel, hv, ← hlength, Int.toNat_natCast,
        littleEndian_unsigned]

end Disassembly

/-! ## Instructions and their bytes -/

/-- An instruction that a processor has, with an operand that can be stored at an address if there
are bytes for one and without an operand otherwise. -/
inductive Instruction.Encodable (cpu : Cpu) (address : Nat) : Instruction → Prop
  | bare {m : Mnemonic} {mode : Mode} (hmode : cpu.hasMode m mode = true)
      (hsize : mode.operandSize = 0) : Encodable cpu address ⟨m, .resolved mode, none⟩
  | operand {m : Mnemonic} {mode : Mode} {v : Value} (hmode : cpu.hasMode m mode = true)
      (hsize : mode.operandSize ≠ 0) (hv : mode.Takes address v) :
      Encodable cpu address ⟨m, .resolved mode, some (.constant v)⟩

/-- The bytes of an instruction with a constant operand at an address. -/
def Instruction.bytesAt (cpu : Cpu) (address : Nat) (i : Instruction) : List UInt8 :=
  match i.addressing, i.operand with
  | .resolved mode, some (.constant v) =>
    (cpu.opcode? i.mnemonic mode).toList ++ mode.operandBytes address v
  | .resolved mode, none => (cpu.opcode? i.mnemonic mode).toList
  | _, _ => []

namespace Decoded

/-- What is encodable at an address; a byte is everywhere. -/
def Encodable (cpu : Cpu) (address : Nat) : Decoded → Prop
  | instruction i => i.Encodable cpu address
  | byte _ => True

def bytesAt (cpu : Cpu) (address : Nat) : Decoded → List UInt8
  | instruction i => i.bytesAt cpu address
  | byte b => [b]

def size : Decoded → Nat
  | instruction i => i.size
  | byte _ => 1

/-- The item that puts back what was decoded. -/
def item : Decoded → Item
  | instruction i => .instruction i
  | byte b => .data .byte .little [.constant (Int64.ofNat b.toNat)]

/-- Whether all of a list can be encoded from an address on. -/
def Fits (cpu : Cpu) : Nat → List Decoded → Prop
  | _, [] => True
  | address, d :: ds => d.Encodable cpu address ∧ Fits cpu (address + d.size) ds

/-- The bytes of a list from an address on. -/
def image (cpu : Cpu) : Nat → List Decoded → List UInt8
  | _, [] => []
  | address, d :: ds => d.bytesAt cpu address ++ image cpu (address + d.size) ds

/-- The lines of a list from an address on. -/
def lines (cpu : Cpu) : Nat → List Decoded → List Disassembly.Line
  | _, [] => []
  | address, d :: ds => ⟨address, d.bytesAt cpu address, d⟩ :: lines cpu (address + d.size) ds

variable {cpu : Cpu} {address : Nat} {d : Decoded}

theorem length_bytesAt (h : d.Encodable cpu address) : (d.bytesAt cpu address).length = d.size := by
  cases d with
  | byte b => rfl
  | instruction i =>
    cases h with
    | bare hmode hsize =>
      obtain ⟨opcode, hopcode⟩ := Option.isSome_iff_exists.1 hmode
      simp [bytesAt, Instruction.bytesAt, size, Instruction.size, hopcode, hsize]
    | operand hmode hsize hv =>
      obtain ⟨opcode, hopcode⟩ := Option.isSome_iff_exists.1 hmode
      simp [bytesAt, Instruction.bytesAt, size, Instruction.size, hopcode, Nat.add_comm]

theorem size_pos : 0 < d.size := by
  cases d with
  | byte b => exact Nat.one_pos
  | instruction i =>
    simp only [size, Instruction.size]
    split <;> omega

end Decoded

namespace Disassembly

variable {cpu : Cpu} {address : Nat} {i : Instruction}

/-- **An instruction is found in its bytes**, whatever comes behind them. -/
theorem decodeLine_bytesAt (h : i.Encodable cpu address) (rest : List UInt8) :
    ∃ opcode operand, i.bytesAt cpu address = opcode :: operand ∧
      decodeLine cpu address opcode (operand ++ rest) =
        ⟨address, i.bytesAt cpu address, .instruction i⟩ := by
  cases h with
  | bare hmode hsize =>
    obtain ⟨opcode, hopcode⟩ := Option.isSome_iff_exists.1 hmode
    have hdecode := Cpu.decode?_eq_some_iff.2 (Cpu.opcode?_eq_some_iff.1 hopcode)
    refine ⟨opcode, [], by simp [Instruction.bytesAt, hopcode], ?_⟩
    simp [decodeLine, hdecode, hsize, operand?, Instruction.bytesAt, hopcode]
  | @operand m mode v hmode hsize hv =>
    obtain ⟨opcode, hopcode⟩ := Option.isSome_iff_exists.1 hmode
    have hdecode := Cpu.decode?_eq_some_iff.2 (Cpu.opcode?_eq_some_iff.1 hopcode)
    have htake : (mode.operandBytes address v ++ rest).take mode.operandSize =
        mode.operandBytes address v := List.take_left' Mode.length_operandBytes
    refine ⟨opcode, mode.operandBytes address v, by simp [Instruction.bytesAt, hopcode], ?_⟩
    simp [decodeLine, hdecode, htake, operand?_operandBytes hsize hv, Instruction.bytesAt, hopcode]

/-- **Instructions are found in their bytes**, line by line. -/
theorem linesFrom_image : ∀ {fuel : Nat} {address : Nat} {is : List Instruction},
    Decoded.Fits cpu address (is.map .instruction) →
      (Decoded.image cpu address (is.map .instruction)).length ≤ fuel →
        linesFrom cpu fuel address (Decoded.image cpu address (is.map .instruction)) =
          Decoded.lines cpu address (is.map .instruction)
  | fuel, address, [], _, _ => by cases fuel <;> rfl
  | fuel, address, i :: is, ⟨hi, his⟩, hfuel => by
    replace his : Decoded.Fits cpu (address + i.size) (is.map .instruction) := his
    -- A line takes just the bytes of its instruction, so the next line begins where it should.
    obtain ⟨opcode, operand, hbytes, hline⟩ := decodeLine_bytesAt hi
      (Decoded.image cpu (address + i.size) (is.map .instruction))
    have hlength : (i.bytesAt cpu address).length = i.size := Decoded.length_bytesAt hi
    have himage : Decoded.image cpu address ((i :: is).map .instruction) =
        opcode :: (operand ++ Decoded.image cpu (address + i.size) (is.map .instruction)) := by
      simp [Decoded.image, Decoded.bytesAt, Decoded.size, hbytes]
    have hdrop : (opcode :: (operand ++
        Decoded.image cpu (address + i.size) (is.map .instruction))).drop i.size =
          Decoded.image cpu (address + i.size) (is.map .instruction) := by
      rw [← List.cons_append, ← hbytes, List.drop_left' hlength]
    rw [himage] at hfuel ⊢
    cases fuel with
    | zero => simp at hfuel
    | succ fuel =>
      have hshort : (Decoded.image cpu (address + i.size) (is.map .instruction)).length ≤ fuel := by
        simp only [List.length_cons, List.length_append] at hfuel
        omega
      have hrest := linesFrom_image his hshort
      simp only [linesFrom, hline, hlength, hdrop, hrest, List.map_cons, Decoded.lines,
        Decoded.bytesAt, Decoded.size]

end Disassembly

/-! ## What the last pass writes -/

/-- Nothing is wrong so far, no scope is open, the segment takes bytes, and the last pass has come
to an address with some bytes written. -/
structure Sweep.Ready (cpu : Cpu) (address : Nat) (image : List UInt8) (s : Sweep Image) :
    Prop where
  cpu_eq : s.context.cpu = cpu
  clean : s.context.hasErrors = false
  inner : s.context.env.inner = []
  writable : s.context.env.writable = true
  pc : s.context.env.pc = Value.clamp address
  bytes : s.memory.bytes.toList = image

namespace Pass

variable {s : Sweep Image} {location : Location} {cpu : Cpu} {mode : Mode} {address : Nat}
  {v : Value}

theorem write_of_writable (hw : s.context.env.writable = true) (bytes : List UInt8) :
    write s location bytes = { s with memory.bytes := s.memory.bytes ++ bytes } := by
  rw [write, if_pos hw]

theorem emitValue_constant {width : Width} (hw : s.context.env.writable = true)
    (hfits : width.fits v = true) :
    emitValue s location width .little (.constant v) =
      { s with memory.bytes := s.memory.bytes ++ littleEndian width.bytes v.toInt.toNat } := by
  rw [emitValue, checkedValue, Sweep.valueOf_of_evaluate (v := v) rfl]
  simp only [hfits, if_true, Width.encode]
  exact write_of_writable hw _

/-- A byte is written as it is. -/
theorem emitValue_byte (hw : s.context.env.writable = true) (b : UInt8) :
    emitValue s location .byte .little (.constant (Int64.ofNat b.toNat)) =
      { s with memory.bytes := s.memory.bytes ++ [b] } := by
  have hlt := b.toNat_lt
  have hb : (Int64.ofNat b.toNat).toInt = b.toNat := Int64.toInt_ofNat_of_lt (by omega)
  have hfits : Width.byte.fits (Int64.ofNat b.toNat) = true := by
    simp only [Width.fits, Width.maxValue, Bool.and_eq_true, decide_eq_true_eq,
      Int64.le_iff_toInt_le, hb]
    exact ⟨Int.natCast_nonneg _, Int.le_of_lt_add_one (Int.ofNat_lt.2 hlt)⟩
  rw [emitValue_constant hw hfits, hb]
  simp [Width.bytes, littleEndian]

/-- The displacement from an address that is far from the end of the range. -/
theorem displacement_clamp (hrel : mode = .relative ∨ mode = .relativeWord)
    (h : mode.Takes address v) :
    displacement v (Value.clamp address) = Int64.ofInt (v.toInt - (address + 2)) := by
  obtain ⟨hv, hback, hforth, -⟩ := h.displacement hrel
  have htwo : (2 : Value).toInt = 2 := by decide
  rw [← Int64.toInt_inj, displacement, Value.saturatingSub, Value.saturatingAdd,
    Value.toInt_clamp, Value.toInt_clamp, Value.toInt_clamp, htwo,
    Int64.toInt_ofInt_of_le (by omega) (by omega)]
  omega

theorem emitDisplacement_constant {count : Nat} {low high : Value}
    (hw : s.context.env.writable = true) (hlow : low ≤ displacement v s.context.env.pc)
    (hhigh : displacement v s.context.env.pc ≤ high) :
    emitDisplacement s location count low high (.constant v) =
      { s with memory.bytes :=
        s.memory.bytes ++ displacementBytes count (displacement v s.context.env.pc) } := by
  rw [emitDisplacement, Sweep.valueOf_of_evaluate (v := v) rfl]
  simp only [hlow, hhigh, decide_true, Bool.and_self, if_true]
  exact write_of_writable hw _

/-- An operand that can be stored is written as its bytes. -/
theorem emitOperand_constant (hw : s.context.env.writable = true)
    (hpc : s.context.env.pc = Value.clamp address) (hsize : mode.operandSize ≠ 0)
    (h : mode.Takes address v) :
    emitOperand s location mode (.constant v) =
      { s with memory.bytes := s.memory.bytes ++ mode.operandBytes address v } := by
  by_cases hrel : mode = .relative ∨ mode = .relativeWord
  · -- No step of the displacement is out of range, so it is the plain difference.
    have hd := displacement_clamp hrel h
    rw [← hpc] at hd
    have hint : (displacement v s.context.env.pc).toInt = v.toInt - (address + 2) := by
      obtain ⟨hv, hback, hforth, -⟩ := h.displacement hrel
      rw [hd, Int64.toInt_ofInt_of_le (by omega) (by omega)]
    rw [Mode.operandBytes, if_pos hrel, ← hd]
    rw [Mode.Takes, if_pos hrel, ← hint] at h
    obtain ⟨-, hback, hforth⟩ := h
    obtain rfl | rfl := hrel
    all_goals
      exact emitDisplacement_constant hw (Int64.le_iff_toInt_le.2 hback)
        (Int64.le_iff_toInt_le.2 (Int.le_of_lt_add_one hforth))
  · have hsmall := mode.operandSize_le
    rw [Mode.operandBytes, if_neg hrel]
    rw [Mode.Takes, if_neg hrel] at h
    obtain ⟨hlow, hhigh⟩ := h
    unfold emitOperand
    split
    · exact absurd (.inl rfl) hrel
    · exact absurd (.inr rfl) hrel
    · obtain hone | htwo : mode.operandSize = 1 ∨ mode.operandSize = 2 := by omega
      · rw [hone] at hhigh ⊢
        refine emitValue_constant hw ?_
        simp only [Width.fits, Width.maxValue, Bool.and_eq_true, decide_eq_true_eq,
          Int64.le_iff_toInt_le]
        exact ⟨hlow, Int.le_of_lt_add_one hhigh⟩
      · rw [htwo] at hhigh ⊢
        refine emitValue_constant hw ?_
        simp only [Width.fits, Width.maxValue, Bool.and_eq_true, decide_eq_true_eq,
          Int64.le_iff_toInt_le]
        exact ⟨hlow, Int.le_of_lt_add_one hhigh⟩

end Pass

namespace Sweep.Ready

variable {s : Sweep Image} {location : Location} {cpu : Cpu} {address : Nat} {image : List UInt8}

theorem write (hs : s.Ready cpu address image) (bytes : List UInt8) :
    (Pass.write s location bytes).Ready cpu address (image ++ bytes) := by
  rw [Pass.write_of_writable hs.writable]
  exact ⟨hs.cpu_eq, hs.clean, hs.inner, hs.writable, hs.pc, by simp [hs.bytes]⟩

theorem emitOperand {mode : Mode} {v : Value} (hs : s.Ready cpu address image)
    (hsize : mode.operandSize ≠ 0) (h : mode.Takes address v) :
    (Pass.emitOperand s location mode (.constant v)).Ready cpu address
      (image ++ mode.operandBytes address v) := by
  rw [Pass.emitOperand_constant hs.writable hs.pc hsize h]
  exact ⟨hs.cpu_eq, hs.clean, hs.inner, hs.writable, hs.pc, by simp [hs.bytes]⟩

theorem advance (hs : s.Ready cpu address image) {count : Nat} (hcount : count < 2 ^ 63) :
    (s.mapEnv (·.advancePc (Int64.ofNat count))).Ready cpu (address + count) image :=
  ⟨hs.cpu_eq, hs.clean, hs.inner, hs.writable,
    (congrArg (Value.saturatingAdd · _) hs.pc).trans (Value.saturatingAdd_clamp _ _ hcount),
    hs.bytes⟩

theorem stats (hs : s.Ready cpu address image) (stats : Stats) :
    Ready cpu address image { s with memory.stats := stats } :=
  ⟨hs.cpu_eq, hs.clean, hs.inner, hs.writable, hs.pc, hs.bytes⟩

/-- An instruction that can be encoded is written as its bytes, and the program counter moves over
them. -/
theorem emitInstruction {i : Instruction} (hs : s.Ready cpu address image)
    (h : i.Encodable cpu address) :
    (Pass.emitInstruction s location i).Ready cpu (address + i.size)
      (image ++ i.bytesAt cpu address) := by
  cases h with
  | @bare m mode hmode hsize =>
    obtain ⟨opcode, hopcode⟩ := Option.isSome_iff_exists.1 hmode
    simp only [Pass.emitInstruction, hs.cpu_eq, hopcode, Instruction.bytesAt, Instruction.size]
    exact ((hs.write _).advance (by omega)).stats _
  | @operand m mode v hmode hsize hv =>
    have hsmall := mode.operandSize_le
    obtain ⟨opcode, hopcode⟩ := Option.isSome_iff_exists.1 hmode
    simp only [Pass.emitInstruction, hs.cpu_eq, hopcode, Instruction.bytesAt, Instruction.size,
      ← List.append_assoc]
    exact (((hs.write _).emitOperand hsize hv).advance (by omega)).stats _

/-- **What can be encoded is written as its bytes.** -/
theorem emit {d : Decoded} {l : Nat × Statement} (hs : s.Ready cpu address image)
    (h : d.Encodable cpu address) (hitem : l.2.item = d.item) :
    (Visit.step Pass.emit s l).Ready cpu (address + d.size) (image ++ d.bytesAt cpu address) := by
  cases d with
  | instruction i =>
    simp only [Visit.step, Pass.emit, Visit.observe, hitem, Decoded.item]
    exact hs.emitInstruction h
  | byte b =>
    have hvalue : (Pass.emitValue s l.2.location .byte .little
        (.constant (Int64.ofNat b.toNat))).Ready cpu address (image ++ [b]) := by
      rw [Pass.emitValue_byte hs.writable]
      refine ⟨hs.cpu_eq, hs.clean, hs.inner, hs.writable, hs.pc, ?_⟩
      simp [hs.bytes]
    simp only [Visit.step, Pass.emit, Visit.observe, hitem, Decoded.item]
    have hone : 1 < 2 ^ 63 := by decide
    exact (hvalue.advance hone).stats _

/-- **A list that can be encoded is written as its bytes.** -/
theorem foldl_emit {ds : List Decoded} {leaves : List (Nat × Statement)}
    (hs : s.Ready cpu address image) (h : Decoded.Fits cpu address ds)
    (hitems : leaves.map (·.2.item) = ds.map Decoded.item) :
    ∃ last, (leaves.foldl (Visit.step Pass.emit) s).Ready cpu last
      (image ++ Decoded.image cpu address ds) := by
  -- Ready at the address behind what was written so far, the next line is written there.
  induction ds generalizing leaves s address image with
  | nil =>
    obtain rfl := List.map_eq_nil_iff.1 hitems
    exact ⟨address, by simpa [Decoded.image] using hs⟩
  | cons d ds ih =>
    obtain ⟨hd, hds⟩ := h
    obtain ⟨l, leaves, rfl, hitem, hitems⟩ := List.map_eq_cons_iff.1 hitems
    obtain ⟨last, hlast⟩ := ih (hs.emit hd hitem) hds hitems
    exact ⟨last, by rwa [List.append_assoc] at hlast⟩

end Sweep.Ready

/-- **A program of what can be encoded** is written without a fault, as the bytes of the list. -/
theorem Workspace.emit_image {cpu : Cpu} {origin : Nat} {ds : List Decoded} {w : Workspace}
    (hcpu : w.context.cpu = cpu) (hclean : w.Clean) (hinner : w.context.env.inner = [])
    (hleaves : w.program.leaves.map (·.2.item) =
      .setPc (.constant (Value.clamp origin)) :: ds.map Decoded.item)
    (hfits : Decoded.Fits cpu origin ds) :
    w.emit.1.Clean ∧ w.emit.2.2.bytes.toList = Decoded.image cpu origin ds := by
  obtain ⟨l, leaves, hl, hitem, hitems⟩ := List.map_eq_cons_iff.1 hleaves
  -- The first statement sets the program counter, from then on the list is written.
  have hstart : (Visit.step Pass.emit (w.opening {}) l).Ready cpu origin [] := by
    have hrestart := Context.restart_eq hinner
    simp only [Visit.step, Pass.emit, Visit.observe, hitem]
    rw [Sweep.valueOf_of_evaluate (v := Value.clamp origin) rfl, opening, hrestart]
    exact ⟨hcpu, hclean, rfl, rfl, rfl, rfl⟩
  obtain ⟨last, hlast⟩ := hstart.foldl_emit hfits hitems
  have hclosing : w.closing {} Pass.emit = leaves.foldl (Visit.step Pass.emit)
      (Visit.step Pass.emit (w.opening {}) l) := by
    rw [closing, hl, List.foldl_cons]
  have hemit : w.emit = w.sweep {} Pass.emit id := if_neg (Bool.eq_false_iff.1 hclean)
  rw [hemit, sweep_eq, hclosing]
  exact ⟨Context.hasErrors_restart.2 ⟨hlast.clean, hlast.inner⟩, hlast.bytes⟩

/-- **Disassembling undoes assembling.** Instructions that can be encoded from an address on are
written there without a fault, and disassembling the bytes at the address gives them back, at
consecutive addresses. -/
theorem Assembly.disassembly_undoes_assembly (cpu : Cpu) (extend : Bool) (origin : UInt16)
    (is : List Instruction) (program : Program)
    (hprogram : program.leaves.map (·.2.item) =
      .setPc (.constant (Int64.ofNat origin.toNat)) :: is.map .instruction)
    (h : Decoded.Fits cpu origin.toNat (is.map .instruction)) :
    (start ⟨cpu, extend⟩ program {}).emit.1.Clean ∧
      Disassembly.ofBytes cpu origin.toNat
          (start ⟨cpu, extend⟩ program {}).emit.2.2.bytes.toList =
        Decoded.lines cpu origin.toNat (is.map .instruction) := by
  have hleaves : (start ⟨cpu, extend⟩ program {}).program.leaves.map (·.2.item) =
      .setPc (.constant (Value.clamp origin.toNat)) ::
        (is.map Decoded.instruction).map Decoded.item := by
    rw [Value.clamp_toNat, List.map_map]
    exact hprogram
  obtain ⟨hclean, hbytes⟩ :=
    Workspace.emit_image (w := start ⟨cpu, extend⟩ program {}) rfl rfl rfl hleaves h
  rw [hbytes]
  exact ⟨hclean, Disassembly.linesFrom_image h (Nat.le_refl _)⟩

/-- Instructions that run over the end of memory, with branches of both sizes. -/
def Assembly.lastPage : List Instruction :=
  [.resolved .lda .immediate (.constant 0x12), .resolved .bne .relative (.constant 0xfff0),
    .resolved .jmp .indexedIndirect (.constant 0x1234),
    .resolved .bsr .relativeWord (.constant 0x8000), .implied .brk,
    .resolved .phw .immediateWord (.constant 0xabcd), .resolved .sta .zeroPage (.constant 0x10),
    .resolved .beq .relative (.constant 0xffff)]

/-- The instructions of `lastPage`, placed so that the last two lie behind the end of memory. -/
def Assembly.lastPageProgram : Program :=
  ⟨.leaf 0 ⟨.topLevel, .setPc (.constant 0xfff0)⟩ ::
    lastPage.map (fun i => .leaf 1 ⟨.topLevel, .instruction i⟩), 2⟩

theorem Assembly.disassembly_undoes_assembly_lastPage :
    (start ⟨.csg4502, true⟩ lastPageProgram {}).emit.1.Clean ∧
      (start ⟨.csg4502, true⟩ lastPageProgram {}).emit.2.2.bytes.toList =
          [0xa9, 0x12, 0xd0, 0xfc, 0x7c, 0x34, 0x12, 0x63, 0x07, 0x80, 0x00, 0xf4, 0xcd, 0xab,
            0x85, 0x10, 0xf0, 0xfd] ∧
      Disassembly.ofBytes .csg4502 0xfff0
          [0xa9, 0x12, 0xd0, 0xfc, 0x7c, 0x34, 0x12, 0x63, 0x07, 0x80, 0x00, 0xf4, 0xcd, 0xab,
            0x85, 0x10, 0xf0, 0xfd] =
        Decoded.lines .csg4502 0xfff0 (lastPage.map .instruction) ∧
      (Decoded.lines .csg4502 0xfff0 (lastPage.map .instruction)).map (·.address) =
        [0xfff0, 0xfff2, 0xfff4, 0xfff7, 0xfffa, 0xfffb, 0xfffe, 0x10000] := by
  have h : Decoded.Fits .csg4502 (0xfff0 : UInt16).toNat (lastPage.map .instruction) :=
    ⟨.operand (by decide) (by decide) (by decide), .operand (by decide) (by decide) (by decide),
      .operand (by decide) (by decide) (by decide), .operand (by decide) (by decide) (by decide),
      .bare (by decide) (by decide), .operand (by decide) (by decide) (by decide),
      .operand (by decide) (by decide) (by decide), .operand (by decide) (by decide) (by decide),
      trivial⟩
  have hbytes : (start ⟨.csg4502, true⟩ lastPageProgram {}).emit.2.2.bytes.toList =
        [0xa9, 0x12, 0xd0, 0xfc, 0x7c, 0x34, 0x12, 0x63, 0x07, 0x80, 0x00, 0xf4, 0xcd, 0xab,
          0x85, 0x10, 0xf0, 0xfd] := by
    decide +kernel
  obtain ⟨hclean, hlines⟩ :=
    disassembly_undoes_assembly .csg4502 true 0xfff0 lastPage lastPageProgram rfl h
  rw [hbytes] at hlines
  exact ⟨hclean, hbytes, hlines, by decide +kernel⟩

end Assembler6502
