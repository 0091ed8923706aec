import Assembler6502.Proofs.Codec
import Assembler6502.Proofs.Expansion

/-!
# Labels as offsets

The size of a statement is counted three times: by the layout, which places labels, by the last
pass, which moves the program counter on its own, and by the bytes that are written. Where there is
no fault the first two come to the same; that the third does takes that no operand is missing, which
holds for every program that was read. So if the program counter is never set and the segment never
changes, then the program counter is the number of bytes written so far, and the value of a label
for the current address is its offset in the image.

## Main definitions

* `Item.Flat`: the items that neither set the program counter nor change the segment
* `Sweep.AtOffset`: the program counter is the number of bytes written so far

## Main results

* `Sweep.AtOffset.emit`, `Sweep.AtOffset.run`: writing a statement, and all of them
* `Assembly.labels_are_offsets`: labels for the current address are offsets in the image
-/

namespace Assembler6502

/-! ## What is written -/

@[simp] theorem Width.length_encode (width : Width) (endian : Endian) (n : Nat) :
    (width.encode endian n).length = width.bytes := by
  cases endian <;> simp [Width.encode]

theorem Instruction.toInt_size (i : Instruction) : (Int64.ofNat i.size).toInt = i.size := by
  refine Int64.toInt_ofNat_of_lt ?_
  unfold Instruction.size
  split
  · decide
  · rename_i mode _
    have := mode.operandSize_le
    omega

namespace Pass

variable {s : Sweep Image} {location : Location} {e : Expr}

theorem size_write (hw : s.context.env.writable = true) (bytes : List UInt8) :
    (write s location bytes).memory.bytes.size = s.memory.bytes.size + bytes.length := by
  rw [write_of_writable hw]
  simp [← Array.length_toList]

theorem memory_checkedValue (s : Sweep Image) (location : Location) (width : Width) (e : Expr) :
    (checkedValue s location width e).2.memory = s.memory := by
  simp only [checkedValue]
  split <;> rfl

theorem env_checkedValue (s : Sweep Image) (location : Location) (width : Width) (e : Expr) :
    (checkedValue s location width e).2.context.env = s.context.env :=
  (reports_checkedValue (P := fun _ => True) (fun _ _ => trivial) fun _ _ => trivial).env

theorem size_emitValue (hw : s.context.env.writable = true) (width : Width) (endian : Endian)
    (e : Expr) :
    (emitValue s location width endian e).memory.bytes.size =
      s.memory.bytes.size + width.bytes := by
  simp only [emitValue]
  rw [size_write (by rw [env_checkedValue, hw]), memory_checkedValue, Width.length_encode]

theorem env_emitValue (s : Sweep Image) (location : Location) (width : Width) (endian : Endian)
    (e : Expr) : (emitValue s location width endian e).context.env = s.context.env :=
  (reports_emitValue (P := fun _ => True) (fun _ _ => trivial) fun _ _ => trivial).env

theorem size_emitDisplacement (hw : s.context.env.writable = true) (count : Nat)
    (low high : Value) (e : Expr) :
    (emitDisplacement s location count low high e).memory.bytes.size =
      s.memory.bytes.size + count := by
  have henv : (s.valueOf location e).2.context.env = s.context.env :=
    (Context.Reports.valueOf (P := fun _ => True) fun _ _ => trivial).env
  have hlength (d : Value) : (displacementBytes count d).length = count :=
    Disassembly.length_littleEndian count _
  simp only [emitDisplacement]
  -- What does not fit is written as zero, in the same size.
  split
  · rw [size_write (by rw [henv, hw]), hlength]
    rfl
  · rw [size_write (by rw [← hw, ← henv]; rfl), hlength]
    rfl

theorem size_emitOperand (hw : s.context.env.writable = true) (mode : Mode) (e : Expr) :
    (emitOperand s location mode e).memory.bytes.size =
      s.memory.bytes.size + mode.operandSize := by
  unfold emitOperand
  split
  · exact size_emitDisplacement hw 1 _ _ e
  · exact size_emitDisplacement hw 2 _ _ e
  · have hle := mode.operandSize_le
    obtain hsize | hsize | hsize : mode.operandSize = 0 ∨ mode.operandSize = 1 ∨
        mode.operandSize = 2 := by omega
    · rw [hsize]
      rfl
    · rw [hsize]
      exact size_emitValue hw .byte .little e
    · rw [hsize]
      exact size_emitValue hw .word .little e

/-- An instruction that has an opcode is written in its size, unless its operand is missing. -/
theorem size_emitInstruction_of_opcode (hw : s.context.env.writable = true) {i : Instruction}
    {mode : Mode} {opcode : UInt8} (hwhole : i.Whole) (hmode : i.addressing = .resolved mode)
    (hopcode : s.context.cpu.opcode? i.mnemonic mode = some opcode) :
    (emitInstruction s location i).memory.bytes.size = s.memory.bytes.size + i.size := by
  have hfirst : (write s location [opcode]).memory.bytes.size = s.memory.bytes.size + 1 :=
    size_write hw [opcode]
  have hw' : (write s location [opcode]).context.env.writable = true := by
    rw [(reports_write (P := fun _ => True) (fun _ _ => trivial) s location [opcode]).env, hw]
  simp only [emitInstruction, Instruction.size, hmode, hopcode]
  cases hoperand : i.operand with
  | none =>
    -- Without an operand there is no room for one.
    have himplied : mode = .implied := by
      rcases hwhole with hsome | himplied
      · simp [hoperand] at hsome
      · simpa [hmode] using himplied
    rw [himplied]
    exact hfirst
  | some e =>
    have hsize : (emitOperand (write s location [opcode]) location mode e).memory.bytes.size =
        s.memory.bytes.size + 1 + mode.operandSize := by
      rw [size_emitOperand hw', hfirst]
    simpa [Sweep.mapEnv, Sweep.mapContext, Nat.add_assoc] using hsize

theorem size_emitInstruction (hw : s.context.env.writable = true) {i : Instruction}
    (hwhole : i.Whole)
    (hclean : (emitInstruction s location i).context.hasErrors = false) :
    (emitInstruction s location i).memory.bytes.size = s.memory.bytes.size + i.size := by
  cases hmode : i.addressing with
  | pending shape => simp [emitInstruction, hmode] at hclean
  | resolved mode =>
    cases hopcode : s.context.cpu.opcode? i.mnemonic mode with
    | none => simp [emitInstruction, hmode, hopcode] at hclean
    | some opcode => exact size_emitInstruction_of_opcode hw hwhole hmode hopcode

theorem size_emitData (hw : s.context.env.writable = true) (width : Width) (endian : Endian)
    (values : List Expr) :
    (emitData s location width endian values).memory.bytes.size =
      s.memory.bytes.size + width.bytes * values.length := by
  have hvalues : (values.foldl (fun s e => emitValue s location width endian e) s).memory.bytes.size
      = s.memory.bytes.size + width.bytes * values.length := by
    induction values generalizing s with
    | nil => rfl
    | cons e rest ih =>
      rw [List.foldl_cons, ih (by rw [env_emitValue, hw]), size_emitValue hw, List.length_cons,
        Nat.mul_succ]
      omega
  exact hvalues

/-- A part of a file has the length that was asked for. -/
theorem length_subrange {bytes part : List UInt8} {offset length : Value}
    (h : subrange bytes offset length = .ok part) : (part.length : Int) = length.toInt := by
  unfold subrange at h
  split at h
  · cases h
  · split at h
    · cases h
    · split at h
      · cases h
      · rename_i hlength
        split at h
        · cases h
        · obtain rfl := Except.ok.inj h
          have hnonneg : 0 ≤ length.toInt := by
            rw [Int64.not_lt, Int64.le_iff_toInt_le] at hlength
            exact hlength
          rw [List.length_take, List.length_drop]
          omega

/-- Part of a file is written in the length that the program counter is moved by. -/
theorem size_emitByteRange (hw : s.context.env.writable = true) {offset length : Expr}
    {bytes : List UInt8}
    (hclean : (emitByteRange s location offset length bytes).context.hasErrors = false) :
    ∃ (n : Nat) (v : Value), s.context.evaluate length = .ok v ∧ v.toInt = n ∧
      (emitByteRange s location offset length bytes).memory.bytes.size =
        s.memory.bytes.size + n := by
  simp only [emitByteRange] at hclean ⊢
  split at hclean
  · simp at hclean
  · rename_i part hpart
    simp only [Sweep.context_mapEnv, Context.hasErrors_mapEnv] at hclean
    obtain ⟨hc, v, hv, hvo⟩ := Sweep.evaluate_of_valueOf (write_of_clean hclean).1
    obtain ⟨-, o, -, hoo⟩ := Sweep.evaluate_of_valueOf hc
    rw [hoo] at hv hvo
    simp only [hoo, hvo] at hpart ⊢
    exact ⟨part.length, v, hv, (length_subrange hpart).symm, size_write hw part⟩

/-- Memory is filled up to the target. -/
theorem size_emitAdvance (hw : s.context.env.writable = true) {target fill : Expr}
    (hclean : (emitAdvance s location target fill).context.hasErrors = false) :
    ∃ (n : Nat) (v : Value), s.context.evaluate target = .ok v ∧
      v.toInt = s.context.env.pc.toInt + n ∧
      (emitAdvance s location target fill).memory.bytes.size = s.memory.bytes.size + n := by
  obtain ⟨-, v, hv, -⟩ := emitAdvance_of_clean hclean
  simp only [emitAdvance, Sweep.valueOf_of_evaluate hv] at hclean ⊢
  split at hclean
  · simp at hclean
  · rename_i hback
    have hle : s.context.env.pc.toInt ≤ v.toInt := by
      rwa [Int64.not_lt, Int64.le_iff_toInt_le] at hback
    split at hclean
    · simp at hclean
    · rename_i hend
      simp only [hback, hend, if_false]
      refine ⟨(v.toInt - s.context.env.pc.toInt).toNat, v, hv, by omega, ?_⟩
      split
      · simp only [Sweep.mapEnv, Sweep.mapContext]
        rw [size_write (by rw [env_checkedValue, hw]), memory_checkedValue, List.length_replicate]
      · -- The counter stands at the target already, and nothing is filled.
        rename_i hfill
        rw [Int64.not_lt, Int64.le_iff_toInt_le] at hfill
        have hzero : (v.toInt - s.context.env.pc.toInt).toNat = 0 := by omega
        rw [hzero]
        rfl

/-! ## The image grows -/

theorem size_le_write (s : Sweep Image) (location : Location) (bytes : List UInt8) :
    s.memory.bytes.size ≤ (write s location bytes).memory.bytes.size := by
  unfold write
  split
  · simp [← Array.length_toList]
  · exact Nat.le_refl _

theorem size_le_emitValue (s : Sweep Image) (location : Location) (width : Width)
    (endian : Endian) (e : Expr) :
    s.memory.bytes.size ≤ (emitValue s location width endian e).memory.bytes.size := by
  have hwrite := size_le_write (checkedValue s location width e).2 location
    (width.encode endian (checkedValue s location width e).1)
  rwa [memory_checkedValue] at hwrite

theorem size_le_emitOperand (s : Sweep Image) (location : Location) (mode : Mode) (e : Expr) :
    s.memory.bytes.size ≤ (emitOperand s location mode e).memory.bytes.size := by
  have hdisplacement (count : Nat) (low high : Value) :
      s.memory.bytes.size ≤ (emitDisplacement s location count low high e).memory.bytes.size := by
    simp only [emitDisplacement]
    split
    · exact size_le_write (s.valueOf location e).2 location _
    · exact size_le_write (emissionError (s.valueOf location e).2 location _) location _
  unfold emitOperand
  split
  · exact hdisplacement _ _ _
  · exact hdisplacement _ _ _
  · split
    · exact Nat.le_refl _
    · exact size_le_emitValue _ _ _ _ _
    · exact size_le_emitValue _ _ _ _ _

theorem size_le_emitInstruction (s : Sweep Image) (location : Location) (i : Instruction) :
    s.memory.bytes.size ≤ (emitInstruction s location i).memory.bytes.size := by
  unfold emitInstruction
  split
  · exact Nat.le_refl _
  · split
    · exact Nat.le_refl _
    · rename_i mode _ _ opcode _
      have hopcode := size_le_write s location [opcode]
      cases i.operand with
      | none => exact hopcode
      | some e => exact Nat.le_trans hopcode (size_le_emitOperand _ location mode e)

theorem size_le_emitAdvance (s : Sweep Image) (location : Location) (target fill : Expr) :
    s.memory.bytes.size ≤ (emitAdvance s location target fill).memory.bytes.size := by
  simp only [emitAdvance]
  split
  · exact Nat.le_refl _
  · split
    · exact Nat.le_refl _
    · split
      · have hwrite := size_le_write
          (checkedValue (s.valueOf location target).2 location .byte fill).2 location
        rw [memory_checkedValue] at hwrite
        exact hwrite _
      · exact Nat.le_refl _

/-- **The image grows**, whether there is a fault or not. -/
theorem size_le_emit (s : Sweep Image) (l : Nat × Statement) :
    s.memory.bytes.size ≤ (Visit.step emit s l).memory.bytes.size := by
  obtain ⟨id, location, item⟩ := l
  cases item with
  | instruction i => exact size_le_emitInstruction s location i
  | data width endian values =>
    have hvalues : s.memory.bytes.size ≤
        (values.foldl (fun s e => emitValue s location width endian e) s).memory.bytes.size := by
      induction values generalizing s with
      | nil => exact Nat.le_refl _
      | cons e rest ih => exact Nat.le_trans (size_le_emitValue s location width endian e) (ih _)
    exact hvalues
  | byteRange offset length bytes =>
    simp only [Visit.step, emit, Visit.observe, emitByteRange]
    split
    · exact Nat.le_refl _
    · exact size_le_write ((s.valueOf location offset).2.valueOf location length).2 location _
  | checkPc target =>
    simp only [Visit.step, emit, Visit.observe, emitCheckPc]
    split <;> exact Nat.le_refl _
  | advance target fill => exact size_le_emitAdvance s location target fill
  | scopeEnd =>
    simp only [Visit.step, emit, Visit.observe]
    split <;> exact Nat.le_refl _
  | _ => exact Nat.le_refl _

end Pass

/-! ## The program counter is an offset -/

/-- Neither the program counter is set nor the segment changed. -/
def Item.Flat : Item → Prop
  | .setPc _ | .textSegment _ | .dataSegment _ => False
  | _ => True

instance : DecidablePred Item.Flat
  | .setPc _ | .textSegment _ | .dataSegment _ => .isFalse id
  | .blank | .instruction _ | .data _ _ _ | .byteRange _ _ _ | .label _ _ | .advance _ _
  | .checkPc _ | .scopeBegin | .scopeEnd | .macroBegin _ | .macroEnd | .invoke _ _ =>
    .isTrue trivial

/-- The segment takes bytes, and the program counter is the number of those written so far. -/
structure Sweep.AtOffset (s : Sweep Image) : Prop where
  writable : s.context.env.writable = true
  pc : s.context.env.pc.toInt = s.memory.bytes.size

namespace Sweep.AtOffset

variable {s t : Sweep Image} {l : Nat × Statement}

/-- Bytes are written, and the program counter is moved by their number. -/
theorem advance (h : s.AtOffset) {n : Nat} {v : Value}
    (hcontext : t.context = s.context.mapEnv (·.advancePc v)) (hv : v.toInt = n)
    (hbytes : t.memory.bytes.size = s.memory.bytes.size + n)
    (hsize : t.memory.bytes.size < 2 ^ 63) : t.AtOffset := by
  refine ⟨by rw [hcontext]; exact h.writable, ?_⟩
  have hpc : t.context.env.pc = Value.clamp (s.context.env.pc.toInt + v.toInt) := by
    rw [hcontext]
    rfl
  rw [hpc, Value.toInt_clamp, h.pc, hv]
  omega

theorem stay (h : s.AtOffset) (hwritable : t.context.env.writable = s.context.env.writable)
    (hpc : t.context.env.pc = s.context.env.pc) (hbytes : t.memory.bytes = s.memory.bytes) :
    t.AtOffset :=
  ⟨hwritable.trans h.writable, by rw [hpc, hbytes, h.pc]⟩

/-- **Writing a statement** moves the program counter by the number of bytes written. -/
theorem emit (h : s.AtOffset) (hflat : l.2.item.Flat)
    (hwhole : l.2.item.Coded Instruction.Whole)
    (hclean : (Visit.step Pass.emit s l).context.hasErrors = false)
    (hsize : (Visit.step Pass.emit s l).memory.bytes.size < 2 ^ 63) :
    (Visit.step Pass.emit s l).AtOffset := by
  have hcontext := (Pass.emit_of_clean hclean).2
  obtain ⟨id, location, item⟩ := l
  cases item with
  | instruction i =>
    exact h.advance hcontext i.toInt_size (Pass.size_emitInstruction h.writable hwhole hclean) hsize
  | data width endian values =>
    have hbytes : (Pass.emitData s location width endian values).memory.bytes.size =
        s.memory.bytes.size + width.bytes * values.length :=
      Pass.size_emitData h.writable width endian values
    have hbound : (Pass.emitData s location width endian values).memory.bytes.size < 2 ^ 63 := hsize
    exact h.advance hcontext (Int64.toInt_ofNat_of_lt (by omega)) hbytes hsize
  | byteRange offset length bytes =>
    obtain ⟨n, v, hv, hn, hbytes⟩ := Pass.size_emitByteRange h.writable hclean
    refine h.advance ?_ hn hbytes hsize
    rw [hcontext]
    simp [Context.mapEnv, Environment.follow_byteRange hv]
  | advance target fill =>
    obtain ⟨n, v, hv, hn, hbytes⟩ := Pass.size_emitAdvance h.writable hclean
    -- The counter is set to the target, and the filler is as long as the way there.
    have hpc : (Visit.step Pass.emit s (id, ⟨location, .advance target fill⟩)).context =
        s.context.mapEnv (·.setPc v) := by
      rw [hcontext]
      simp [Context.mapEnv, Environment.follow_advance hv]
    refine ⟨by rw [hpc]; exact h.writable, ?_⟩
    have hend :
        (Visit.step Pass.emit s (id, ⟨location, .advance target fill⟩)).context.env.pc = v := by
      rw [hpc]
      rfl
    rw [hend, hn, h.pc]
    exact_mod_cast hbytes.symm
  | setPc | textSegment | dataSegment => cases hflat
  | checkPc target =>
    refine h.stay (by rw [hcontext]; rfl) (by rw [hcontext]; rfl) ?_
    simp only [Visit.step, Pass.emit, Visit.observe, Pass.emitCheckPc]
    split <;> rfl
  | scopeEnd =>
    have henv : (s.context.env.follow .scopeEnd).writable = s.context.env.writable ∧
        (s.context.env.follow .scopeEnd).pc = s.context.env.pc := ⟨rfl, rfl⟩
    refine h.stay (by rw [hcontext]; exact henv.1) (by rw [hcontext]; exact henv.2) ?_
    simp only [Visit.step, Pass.emit, Visit.observe]
    split <;> rfl
  | _ => exact h.stay rfl rfl rfl

/-- **Writing all statements**: the program counter is an offset wherever the last pass comes, and
at its end. -/
theorem run (h : s.AtOffset) {leaves : List (Nat × Statement)}
    (hflat : ∀ l ∈ leaves, l.2.item.Flat)
    (hwhole : ∀ l ∈ leaves, l.2.item.Coded Instruction.Whole)
    (hclean : (leaves.foldl (Visit.step Pass.emit) s).context.hasErrors = false)
    (hsize : (leaves.foldl (Visit.step Pass.emit) s).memory.bytes.size < 2 ^ 63) :
    (leaves.foldl (Visit.step Pass.emit) s).AtOffset ∧
      ∀ x ∈ reached (Visit.step Pass.emit) s leaves, x.1.AtOffset := by
  -- There is no fault behind any statement, and no more bytes than in the end.
  have hsteps := forall_reached_of_foldl (P := fun s : Sweep Image => s.context.hasErrors = false)
    (fun _ _ hs => (Pass.emit_of_clean hs).1) hclean
  have hsizes := (forall_reached_le (f := Visit.step Pass.emit) (s := s) (l := leaves)
    (R := fun s t : Sweep Image => s.memory.bytes.size ≤ t.memory.bytes.size)
    (fun _ => Nat.le_refl _) Nat.le_trans Pass.size_le_emit).2
  refine foldl_invariant h fun x hx hoffset => ?_
  have hmem := mem_of_mem_reached hx
  exact hoffset.emit (hflat _ hmem) (hwhole _ hmem) (hsteps x hx)
    (Nat.lt_of_le_of_lt (hsizes x hx) hsize)

end Sweep.AtOffset

/-! ## Labels -/

namespace Assembly

/-- **Labels are offsets in the image.** Take a program that was read and is assembled without a
fault to fewer than `2 ^ 63` bytes. If no statement sets the program counter or changes the segment
when macros are expanded, then the final value of every label that is defined as the program counter
is the number of bytes written when the last pass reaches its definition, and the number of all
bytes is the program counter in the end. -/
theorem labels_are_offsets (options : Options) (cpu : Cpu) (fs : FileSystem)
    (stdin : Except FileError (List UInt8)) (inputs : List Source.Input) :
    let read := Source.read cpu fs stdin inputs
    let assembly := ofProgram options read.program read.diagnostics
    let w := finished options read.program read.diagnostics
    assembly.diagnostics.hasErrors = false →
    (∀ l ∈ (expanded options read.program read.diagnostics).program.leaves, l.2.item.Flat) →
    assembly.image.bytes.size < 2 ^ 63 →
      (∀ x ∈ w.visits {} Pass.emit, ∀ symbol, x.2.2.item = .label symbol .programCounter →
        ∃ v, assembly.environment.lookupIn x.1.context.env.inner symbol = some v ∧
          v.toInt = x.1.memory.bytes.size) ∧
      (w.closing {} Pass.emit).context.env.pc.toInt = assembly.image.bytes.size := by
  intro read assembly w hclean hflat hsize
  obtain ⟨hplaced, hw, henv⟩ := placed_finished hclean
  have hclosing : (w.closing {} Pass.emit).context.hasErrors = false :=
    (Workspace.clean_of_emit hclean).2
  have himage : assembly.image = (w.closing {} Pass.emit).memory := by
    have hemit : w.emit = w.sweep {} Pass.emit id := if_neg (Bool.eq_false_iff.mp hw)
    show w.emit.2.2 = _
    rw [hemit, Workspace.sweep_eq]
  have hstart : (w.opening ({} : Image)).AtOffset := by
    constructor <;> rw [Workspace.env_opening] <;> rfl
  -- Passes behind the expansion of macros touch instructions only, and leave operands.
  have hflat' : ∀ l ∈ w.program.leaves, l.2.item.Flat := by
    intro l hl
    cases hitem : l.2.item with
    | instruction i => trivial
    | _ => exact hitem ▸ hflat l (mem_expanded hl (by rw [hitem]; rfl))
  have hwhole : ∀ l ∈ w.program.leaves, l.2.item.Coded Instruction.Whole :=
    coded_finished (fun i j hij => hij.whole)
      ((Source.makes_coded Source.Setting.whole_readInstruction).written_read cpu fs stdin inputs)
  obtain ⟨hend, hall⟩ := hstart.run hflat' hwhole hclosing (himage ▸ hsize)
  refine ⟨fun x hx symbol hitem => ?_, by rw [himage]; exact hend.pc⟩
  -- The image is written along the layout, and there the labels are settled.
  obtain ⟨y, hy, hcontext, heq⟩ := (Pass.tracks_emit hclosing).layout.2.1 x hx
  have hxy : x.1.context.env = y.1 := by rw [hcontext]; rfl
  rw [hplaced.rested.env_restart] at hy
  obtain ⟨v, hv, hlookup⟩ := hplaced.settled y hy symbol _ (heq ▸ hitem)
  have hpc : y.1.pc = v := by simpa [Expr.evaluate, Environment.valuation] using hv
  refine ⟨v, ?_, ?_⟩
  · rw [henv, hxy, ← Environment.lookupIn_of_restart (Environment.restart_of_mem_layout hy)]
    exact hlookup
  · rw [← hpc, ← hxy]
    exact (hall x hx).pc

/-- Labels before and behind a branch that reaches too far, data, a part of the program that is
skipped, and a macro. -/
def mixedOffsets : Source.Input :=
  .text "mixed" (".macro m\n lda _1\nin: .word _1\n.macend\nfirst: beq 1000\n`m last\n" ++
    " .byte 1, 2\n .advance 32\nlast: rts\n").toList ""

theorem labels_are_offsets_mixedOffsets :
    let read := Source.read .mos6502 .empty (.ok []) [mixedOffsets]
    let assembly := ofProgram {} read.program read.diagnostics
    let w := finished {} read.program read.diagnostics
    assembly.diagnostics.hasErrors = false ∧ assembly.image.bytes.size = 33 ∧
      (∀ x ∈ w.visits {} Pass.emit, ∀ symbol, x.2.2.item = .label symbol .programCounter →
        ∃ v, assembly.environment.lookupIn x.1.context.env.inner symbol = some v ∧
          v.toInt = x.1.memory.bytes.size) ∧
      (w.closing {} Pass.emit).context.env.pc.toInt = assembly.image.bytes.size := by
  have hlabels := labels_are_offsets {} .mos6502 .empty (.ok []) [mixedOffsets]
  generalize hread : Source.read .mos6502 .empty (.ok []) [mixedOffsets] = read at hlabels ⊢
  obtain ⟨hclean, hsize, hflat⟩ :
      (ofProgram {} read.program read.diagnostics).diagnostics.hasErrors = false ∧
      (ofProgram {} read.program read.diagnostics).image.bytes.size = 33 ∧
      ∀ l ∈ (expanded {} read.program read.diagnostics).program.leaves, l.2.item.Flat := by
    subst hread
    decide +kernel
  exact ⟨hclean, hsize, hlabels hclean hflat (by omega)⟩

end Assembly
end Assembler6502
