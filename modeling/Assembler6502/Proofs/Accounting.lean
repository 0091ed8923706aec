import Assembler6502.Proofs.Offsets

/-!
# What the statistics count

The last pass counts code, data and filler by sums of their own, apart from the bytes that it
writes: the size of an instruction, the width of data times its values, the length of a part of a
file, the distance that is filled. All that is at fault is left out by both, or written as zero and
counted, with one exception: a segment that takes no bytes refuses them, and they are counted all
the same. So if none were refused, every byte of the image is counted once, whatever else was found
wrong.

## Main definitions

* `Context.Refused`: bytes were refused
* `Sweep.Accounts`: as many bytes were written from one state to another as were counted

## Main results

* `Pass.accounts_emit`, `Pass.accounts_foldl`: a statement, and all of them
* `Workspace.size_emit`, `Assembly.every_byte_counted`: the statistics of an image
-/

namespace Assembler6502

/-! ## Bytes that are refused -/

namespace Context

variable {P : Fault → Prop} {c d : Context}

/-- Bytes were refused, since the segment takes none. -/
def Refused (c : Context) : Prop :=
  ∃ fault ∈ c.diagnostics.errors, fault.value = .emission .writeToDataSegment

theorem Refused.adds (h : c.Refused) (ha : Adds P c d) : d.Refused := by
  obtain ⟨fault, hfault, hvalue⟩ := h
  obtain ⟨added, hadded, -⟩ := ha
  exact ⟨fault, by rw [hadded]; exact List.mem_append_left _ hfault, hvalue⟩

theorem Refused.restart (h : c.Refused) : c.restart.Refused := by
  obtain ⟨fault, hfault, hvalue⟩ := h
  unfold Context.restart
  split
  · exact ⟨fault, hfault, hvalue⟩
  · exact ⟨fault, List.mem_append_left _ hfault, hvalue⟩

end Context

namespace Sweep

/-- As many bytes were written from one state to another as were counted, or some were refused. -/
def Accounts (s t : Sweep Image) : Prop :=
  t.memory.bytes.size + s.memory.stats.total = s.memory.bytes.size + t.memory.stats.total ∨
    t.context.Refused

variable {s t u : Sweep Image}

theorem Accounts.of_memory (h : t.memory = s.memory) : s.Accounts t :=
  .inl (by rw [h])

theorem Accounts.refl (s : Sweep Image) : s.Accounts s := .of_memory rfl

theorem Accounts.trans (h : s.Accounts t) (h' : t.Accounts u)
    (hkept : t.context.Refused → u.context.Refused) : s.Accounts u := by
  rcases h with h | h
  · rcases h' with h' | h'
    · exact .inl (by omega)
    · exact .inr h'
  · exact .inr (hkept h)

end Sweep

/-! ## Statements -/

namespace Pass

open Context (Reports)

variable {s : Sweep Image} {location : Location} {e : Expr}

@[simp] theorem stats_write (s : Sweep Image) (location : Location) (bytes : List UInt8) :
    (write s location bytes).memory.stats = s.memory.stats := by
  unfold write
  split <;> rfl

theorem refused_write (hw : s.context.env.writable = false) (bytes : List UInt8) :
    (write s location bytes).context.Refused := by
  rw [write, if_neg (by simp [hw])]
  exact ⟨⟨location, .emission .writeToDataSegment⟩, List.mem_append_right _ (by simp), rfl⟩

@[simp] theorem stats_emitValue (s : Sweep Image) (location : Location) (width : Width)
    (endian : Endian) (e : Expr) :
    (emitValue s location width endian e).memory.stats = s.memory.stats := by
  simp only [emitValue, stats_write, memory_checkedValue]

@[simp] theorem stats_emitOperand (s : Sweep Image) (location : Location) (mode : Mode)
    (e : Expr) : (emitOperand s location mode e).memory.stats = s.memory.stats := by
  have hdisplacement (count : Nat) (low high : Value) :
      (emitDisplacement s location count low high e).memory.stats = s.memory.stats := by
    simp only [emitDisplacement]
    split <;> exact stats_write _ _ _
  unfold emitOperand
  split
  · exact hdisplacement _ _ _
  · exact hdisplacement _ _ _
  · split
    · rfl
    · exact stats_emitValue _ _ _ _ _
    · exact stats_emitValue _ _ _ _ _

/-- An instruction is counted if it has an opcode, and is written then. -/
theorem accounts_emitInstruction {i : Instruction} (hwhole : i.Whole) :
    s.Accounts (emitInstruction s location i) := by
  cases hmode : i.addressing with
  | pending shape => exact .of_memory (by simp only [emitInstruction, hmode]; rfl)
  | resolved mode =>
    cases hopcode : s.context.cpu.opcode? i.mnemonic mode with
    | none => exact .of_memory (by simp only [emitInstruction, hmode, hopcode]; rfl)
    | some opcode =>
      cases hw : s.context.env.writable with
      | true =>
        have hsize : (emitInstruction s location i).memory.bytes.size =
            s.memory.bytes.size + i.size :=
          size_emitInstruction_of_opcode hw hwhole hmode hopcode
        have hcode : (emitInstruction s location i).memory.stats =
            { s.memory.stats with code := s.memory.stats.code + i.size } := by
          simp only [emitInstruction, hmode, hopcode]
          cases i.operand <;> simp [Sweep.mapEnv, Sweep.mapContext]
        refine .inl ?_
        rw [hsize, hcode]
        simp only [Stats.total]
        omega
      | false =>
        -- The opcode is refused already, whatever the operand does.
        have hrefused : (write s location [opcode]).context.Refused := refused_write hw [opcode]
        refine .inr ?_
        simp only [emitInstruction, hmode, hopcode]
        cases i.operand with
        | none => exact hrefused
        | some e =>
          have hoperand :
              (emitOperand (write s location [opcode]) location mode e).context.Refused :=
            hrefused.adds (reports_emitOperand (P := fun _ => True) (fun _ _ => trivial)
              fun _ _ => trivial).faults
          exact hoperand

/-- Where a segment takes no bytes, the first of some values is refused already. -/
theorem refused_foldl (hw : s.context.env.writable = false) (width : Width) (endian : Endian)
    {values : List Expr} (hne : values ≠ []) :
    (values.foldl (fun s e => emitValue s location width endian e) s).context.Refused := by
  cases values with
  | nil => exact absurd rfl hne
  | cons e rest =>
    have hw' : (checkedValue s location width e).2.context.env.writable = false := by
      rw [env_checkedValue, hw]
    have hfirst : (emitValue s location width endian e).context.Refused := refused_write hw' _
    exact hfirst.adds (reports_foldl_emitValue (P := fun _ => True) (fun _ _ => trivial)
      fun _ _ _ _ => trivial).faults

/-- Data is counted by its width and the number of its values. -/
theorem accounts_emitData (width : Width) (endian : Endian) (values : List Expr) :
    s.Accounts (emitData s location width endian values) := by
  have hstats : (values.foldl (fun s e => emitValue s location width endian e) s).memory.stats =
      s.memory.stats := by
    induction values generalizing s with
    | nil => rfl
    | cons e rest ih => rw [List.foldl_cons, ih, stats_emitValue]
  have hdata : (emitData s location width endian values).memory.stats =
      { s.memory.stats with data := s.memory.stats.data + width.bytes * values.length } := by
    simp only [emitData, Sweep.mapEnv, Sweep.mapContext, hstats]
  cases hw : s.context.env.writable with
  | true =>
    refine .inl ?_
    rw [size_emitData hw, hdata]
    simp only [Stats.total]
    omega
  | false =>
    -- No value is refused only if there is none.
    by_cases hne : values = []
    · subst hne
      exact .of_memory rfl
    · exact .inr (refused_foldl hw width endian hne)

/-- Part of a file is counted by its length. -/
theorem accounts_emitByteRange (offset length : Expr) (bytes : List UInt8) :
    s.Accounts (emitByteRange s location offset length bytes) := by
  simp only [emitByteRange]
  split
  · exact .of_memory rfl
  · rename_i part _
    have henv : ((s.valueOf location offset).2.valueOf location length).2.context.env =
        s.context.env := by
      rw [env_valueOf, env_valueOf]
    cases hw : s.context.env.writable with
    | true =>
      refine .inl ?_
      simp only [Sweep.mapEnv, Sweep.mapContext, Stats.total]
      rw [size_write (by rw [henv, hw]), stats_write]
      simp only [Sweep.valueOf]
      omega
    | false => exact .inr (refused_write (by rw [henv, hw]) part)

/-- Nothing is filled if the target is reached or passed already, or behind memory. -/
theorem memory_emitAdvance_of_not {target : Expr} (fill : Expr)
    (h : ¬ (s.context.env.pc < (s.valueOf location target).1 ∧
      (s.valueOf location target).1 ≤ memoryEnd)) :
    (emitAdvance s location target fill).memory = s.memory := by
  simp only [emitAdvance]
  split
  · rfl
  · split
    · rfl
    · rename_i hpast
      split
      · rename_i hpc
        refine absurd ⟨hpc, ?_⟩ h
        rw [Int64.lt_iff_toInt_lt] at hpast
        rw [Int64.le_iff_toInt_le]
        omega
      · rfl

/-- What is filled otherwise: the distance to the target, with one byte. -/
theorem emitAdvance_of_fills {target : Expr} (fill : Expr)
    (hpc : s.context.env.pc < (s.valueOf location target).1)
    (hend : (s.valueOf location target).1 ≤ memoryEnd) {n : Nat}
    (hn : (n : Int) = (s.valueOf location target).1.toInt - s.context.env.pc.toInt) :
    ∃ (b : UInt8) (t : Sweep Image), t.memory = s.memory ∧
      Reports (fun _ => True) s.context t.context ∧
      (emitAdvance s location target fill).memory =
        { (write t location (List.replicate n b)).memory with
          stats.filler := s.memory.stats.filler + n } ∧
      (emitAdvance s location target fill).context =
        (write t location (List.replicate n b)).context.mapEnv
          (·.setPc (s.valueOf location target).1) := by
  have hcount : ((s.valueOf location target).1.toInt - s.context.env.pc.toInt).toNat = n := by
    omega
  have hback : ¬ (s.valueOf location target).1 < s.context.env.pc := by
    rw [Int64.lt_iff_toInt_lt] at hpc ⊢
    omega
  have hpast : ¬ memoryEnd < (s.valueOf location target).1 := by
    rw [Int64.le_iff_toInt_le] at hend
    rw [Int64.lt_iff_toInt_lt]
    omega
  have hmemory : (checkedValue (s.valueOf location target).2 location .byte fill).2.memory =
      s.memory := by
    rw [memory_checkedValue]
    rfl
  -- The state is the one behind both values, of the target and of the fill.
  refine ⟨UInt8.ofNat (checkedValue (s.valueOf location target).2 location .byte fill).1,
    (checkedValue (s.valueOf location target).2 location .byte fill).2, hmemory, ?_, ?_, ?_⟩
  · have hvalue : Reports (fun _ => True) s.context (s.valueOf location target).2.context :=
      Reports.valueOf fun _ _ => trivial
    exact hvalue.trans (reports_checkedValue (fun _ _ => trivial) fun _ _ => trivial).toReports
  · simp only [emitAdvance, if_neg hback, if_neg hpast, if_pos hpc, hcount, Sweep.mapEnv,
      Sweep.mapContext, stats_write, hmemory]
  · simp only [emitAdvance, if_neg hback, if_neg hpast, if_pos hpc, hcount, Sweep.mapEnv,
      Sweep.mapContext]

/-- What is filled is counted by the distance to the target. -/
theorem accounts_emitAdvance (target fill : Expr) :
    s.Accounts (emitAdvance s location target fill) := by
  by_cases hfills : s.context.env.pc < (s.valueOf location target).1 ∧
      (s.valueOf location target).1 ≤ memoryEnd
  · obtain ⟨hpc, hend⟩ := hfills
    have hlt := Int64.lt_iff_toInt_lt.mp hpc
    obtain ⟨n, hn⟩ := Int.eq_ofNat_of_zero_le (Int.sub_nonneg_of_le (Int.le_of_lt hlt))
    obtain ⟨b, t, hmemory, hreports, hwritten, hcontext⟩ :=
      emitAdvance_of_fills fill hpc hend hn.symm
    cases hw : s.context.env.writable with
    | true =>
      refine .inl ?_
      rw [hwritten]
      simp only [Stats.total, stats_write]
      rw [size_write (by rw [hreports.env, hw]), hmemory, List.length_replicate]
      omega
    | false =>
      have hrefused : (write t location (List.replicate n b)).context.Refused :=
        refused_write (by rw [hreports.env, hw]) _
      refine .inr ?_
      rw [hcontext]
      exact hrefused
  · exact .of_memory (memory_emitAdvance_of_not fill hfills)

/-- **A statement**: as many bytes are written as are counted, or some are refused. -/
theorem accounts_emit {l : Nat × Statement} (hwhole : l.2.item.Coded Instruction.Whole) :
    s.Accounts (Visit.step emit s l) := by
  obtain ⟨id, location, item⟩ := l
  cases item with
  | instruction i => exact accounts_emitInstruction hwhole
  | data width endian values => exact accounts_emitData width endian values
  | byteRange offset length bytes => exact accounts_emitByteRange offset length bytes
  | advance target fill => exact accounts_emitAdvance target fill
  | checkPc target =>
    refine .of_memory ?_
    simp only [Visit.step, emit, Visit.observe, emitCheckPc]
    split <;> rfl
  | scopeEnd =>
    refine .of_memory ?_
    simp only [Visit.step, emit, Visit.observe]
    split <;> rfl
  | _ => exact .of_memory rfl

/-- **All statements**: as many bytes are written as are counted, or some are refused. -/
theorem accounts_foldl (s : Sweep Image) {leaves : List (Nat × Statement)}
    (hwhole : ∀ l ∈ leaves, l.2.item.Coded Instruction.Whole) :
    s.Accounts (leaves.foldl (Visit.step emit) s) := by
  refine (foldl_invariant (P := fun t => s.Accounts t) (.refl s) fun x hx h => ?_).1
  refine h.trans (accounts_emit (hwhole x.2 (mem_of_mem_reached hx))) fun hrefused => ?_
  exact hrefused.adds (inPlace_emit.passes x.1 x.2.1 x.2.2).faults

end Pass

/-! ## Images -/

/-- **The last pass**: if no bytes were refused, all that were written are counted. -/
theorem Workspace.size_emit (w : Workspace)
    (hwhole : ∀ l ∈ w.program.leaves, l.2.item.Coded Instruction.Whole)
    (hnone : ¬ w.emit.1.context.Refused) :
    w.emit.2.2.bytes.size = w.emit.2.2.stats.total := by
  unfold Workspace.emit at hnone ⊢
  split at hnone
  · -- The last pass is not run, and there is no image.
    rename_i hfailed
    rw [if_pos hfailed]
    rfl
  · rename_i hclean
    rw [if_neg hclean]
    rw [Workspace.sweep_eq] at hnone ⊢
    rcases Pass.accounts_foldl (w.opening ({} : Image)) hwhole with hsum | hrefused
    · have hzero : (w.opening ({} : Image)).memory = {} := rfl
      rw [hzero] at hsum
      exact (Nat.add_zero _).symm.trans (hsum.trans (Nat.zero_add _))
    · exact absurd hrefused.restart hnone

namespace Assembly

/-- **The statistics account for every byte.** Take a program that was read, and assemble it in any
way. If no bytes were refused, then, whatever else was found wrong, the number of bytes of the image
is the number of those that are counted as code, as data and as filler. -/
theorem every_byte_counted (options : Options) (cpu : Cpu) (fs : FileSystem)
    (stdin : Except FileError (List UInt8)) (inputs : List Source.Input) :
    let read := Source.read cpu fs stdin inputs
    let assembly := ofProgram options read.program read.diagnostics
    (∀ fault ∈ assembly.diagnostics.errors, fault.value ≠ .emission .writeToDataSegment) →
      assembly.image.bytes.size =
        assembly.image.stats.code + assembly.image.stats.data + assembly.image.stats.filler := by
  intro read assembly hnone
  have hwhole : ∀ l ∈ (finished options read.program read.diagnostics).program.leaves,
      l.2.item.Coded Instruction.Whole :=
    coded_finished (fun i j hij => hij.whole)
      ((Source.makes_coded Source.Setting.whole_readInstruction).written_read cpu fs stdin inputs)
  refine Workspace.size_emit _ hwhole ?_
  rintro ⟨fault, hfault, hvalue⟩
  exact hnone fault hfault hvalue

/-- A fault of every kind that the last pass finds and goes on: a branch that reaches too far, an
instruction without such a mode, an operand, a filler and data out of range, a target that is
passed already. -/
def allAtFault : Source.Input :=
  .text "faults" (" .org 8\n beq 1000\n sta #5\n lda 65536\n .advance 16, 256\n" ++
    " .word 65536, 1\n .advance 3\n .byte 7\n").toList ""

theorem every_byte_counted_allAtFault :
    let read := Source.read .mos6502 .empty (.ok []) [allAtFault]
    let assembly := ofProgram { branchExtend := false } read.program read.diagnostics
    assembly.diagnostics.errors.length = 6 ∧ assembly.image.stats = ⟨5, 5, 3⟩ ∧
      assembly.image.bytes.size = 5 + 5 + 3 := by
  have hcounted := every_byte_counted { branchExtend := false } .mos6502 .empty (.ok [])
    [allAtFault]
  generalize hread : Source.read .mos6502 .empty (.ok []) [allAtFault] = read at hcounted ⊢
  obtain ⟨hnone, hfaults, hstats⟩ :
      (∀ fault ∈ (ofProgram { branchExtend := false } read.program
        read.diagnostics).diagnostics.errors, fault.value ≠ .emission .writeToDataSegment) ∧
      (ofProgram { branchExtend := false } read.program
        read.diagnostics).diagnostics.errors.length = 6 ∧
      (ofProgram { branchExtend := false } read.program read.diagnostics).image.stats =
        ⟨5, 5, 3⟩ := by
    subst hread
    decide +kernel
  have hsize := hcounted hnone
  rw [hstats] at hsize
  exact ⟨hfaults, hstats, hsize⟩

end Assembly
end Assembler6502
