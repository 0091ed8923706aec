import Assembler6502.Image
import Assembler6502.Proofs.Tracking

/-!
# Emission

The last pass moves the program counter by rules of its own. Where it finds no fault they come to
the same as those of the layout: what is written has the size that the layout counts, and an address
that is out of bounds would have been a fault. So an image without a fault was written along the
layout, and its branches reach their targets there.

## Main results

* `Pass.write_of_clean`, `Pass.checkedValue_of_clean`, `Pass.emitDisplacement_of_clean`: what is
  written, if there is no fault
* `Pass.emit_of_clean`: a statement is written where the layout has it
* `Pass.emit_branch`: a branch that is written reaches its target
* `Pass.tracks_emit`: an image without a fault was written along the layout
-/

namespace Assembler6502
namespace Pass

variable {s : Sweep Image} {location : Location} {e : Expr}

@[simp] theorem context_emissionError (err : EmissionError) :
    (emissionError s location err).context = s.context.error location (.emission err) := rfl

/-! ## Writing bytes -/

theorem write_of_clean {bytes : List UInt8}
    (h : (write s location bytes).context.hasErrors = false) :
    s.context.hasErrors = false ∧
      write s location bytes = { s with memory.bytes := s.memory.bytes ++ bytes } := by
  by_cases hw : s.context.env.writable
  · simp only [write, hw] at h ⊢
    exact ⟨h, rfl⟩
  · simp [write, hw] at h

/-- A value that is asked for without a fault fits, and nothing else happens. -/
theorem checkedValue_of_clean {width : Width}
    (h : (checkedValue s location width e).2.context.hasErrors = false) :
    s.context.hasErrors = false ∧ ∃ v, s.context.evaluate e = .ok v ∧ width.fits v = true ∧
      checkedValue s location width e = (v.toInt.toNat, s) := by
  by_cases hfit : width.fits (s.valueOf location e).1
  · simp only [checkedValue, hfit, if_true] at h
    obtain ⟨hs, v, hv, hvo⟩ := Sweep.evaluate_of_valueOf h
    rw [hvo] at hfit
    exact ⟨hs, v, hv, hfit, by simp [checkedValue, hvo, hfit]⟩
  · simp [checkedValue, hfit] at h

theorem emitValue_of_clean {width : Width} {endian : Endian}
    (h : (emitValue s location width endian e).context.hasErrors = false) :
    s.context.hasErrors = false ∧
      (emitValue s location width endian e).context = s.context := by
  simp only [emitValue] at h ⊢
  obtain ⟨hc, hwrite⟩ := write_of_clean h
  obtain ⟨hs, v, -, -, hcv⟩ := checkedValue_of_clean hc
  rw [hwrite, hcv]
  exact ⟨hs, rfl⟩

/-- A displacement that is written without a fault lies between its bounds. -/
theorem emitDisplacement_of_clean {count : Nat} {low high : Value}
    (h : (emitDisplacement s location count low high e).context.hasErrors = false) :
    s.context.hasErrors = false ∧ ∃ v, s.context.evaluate e = .ok v ∧
      (low ≤ displacement v s.context.env.pc ∧ displacement v s.context.env.pc ≤ high) ∧
      emitDisplacement s location count low high e =
        { s with memory.bytes :=
          s.memory.bytes ++ displacementBytes count (displacement v s.context.env.pc) } := by
  simp only [emitDisplacement] at h ⊢
  split at h
  · rename_i hin
    -- Faults are traced back from the last thing that was done to the first one.
    obtain ⟨hc, hwrite⟩ := write_of_clean h
    obtain ⟨hs, v, hv, hvo⟩ := Sweep.evaluate_of_valueOf hc
    rw [hvo] at hin hwrite ⊢
    rw [if_pos hin]
    refine ⟨hs, v, hv, by simpa using hin, hwrite⟩
  · have hc := (write_of_clean h).1
    simp at hc

theorem emitOperand_of_clean {mode : Mode}
    (h : (emitOperand s location mode e).context.hasErrors = false) :
    s.context.hasErrors = false ∧ (emitOperand s location mode e).context = s.context := by
  unfold emitOperand at h ⊢
  split at h
  · obtain ⟨hs, v, -, -, heq⟩ := emitDisplacement_of_clean h
    exact ⟨hs, by rw [heq]⟩
  · obtain ⟨hs, v, -, -, heq⟩ := emitDisplacement_of_clean h
    exact ⟨hs, by rw [heq]⟩
  · split at h
    · exact ⟨h, rfl⟩
    · exact emitValue_of_clean h
    · exact emitValue_of_clean h

/-! ## Writing statements -/

/-- An instruction that is written without a fault takes its size. -/
theorem emitInstruction_of_clean {i : Instruction}
    (h : (emitInstruction s location i).context.hasErrors = false) :
    s.context.hasErrors = false ∧
      (emitInstruction s location i).context =
        s.context.mapEnv (·.advancePc (Int64.ofNat i.size)) := by
  unfold emitInstruction at h ⊢
  split at h
  · simp at h
  · split at h
    · simp at h
    · rename_i opcode _
      simp only [Sweep.context_mapEnv, Context.hasErrors_mapEnv] at h ⊢
      cases hop : i.operand with
      | none =>
        simp only [hop] at h ⊢
        obtain ⟨hs, hwrite⟩ := write_of_clean h
        exact ⟨hs, by rw [hwrite]⟩
      | some e =>
        simp only [hop] at h ⊢
        obtain ⟨hc, hoperand⟩ := emitOperand_of_clean h
        obtain ⟨hs, hwrite⟩ := write_of_clean hc
        exact ⟨hs, by rw [hoperand, hwrite]⟩

theorem foldl_emitValue_of_clean {width : Width} {endian : Endian} {values : List Expr}
    (h : (values.foldl (fun s e => emitValue s location width endian e) s).context.hasErrors =
      false) :
    s.context.hasErrors = false ∧
      (values.foldl (fun s e => emitValue s location width endian e) s).context = s.context := by
  induction values generalizing s with
  | nil => exact ⟨h, rfl⟩
  | cons e rest ih =>
    obtain ⟨hc, hrest⟩ := ih h
    obtain ⟨hs, hvalue⟩ := emitValue_of_clean hc
    exact ⟨hs, hrest.trans hvalue⟩

/-- Part of a file that is written without a fault takes its length. -/
theorem emitByteRange_of_clean {offset length : Expr} {bytes : List UInt8}
    (h : (emitByteRange s location offset length bytes).context.hasErrors = false) :
    s.context.hasErrors = false ∧ ∃ n, s.context.evaluate length = .ok n ∧
      (emitByteRange s location offset length bytes).context =
        s.context.mapEnv (·.advancePc n) := by
  simp only [emitByteRange] at h ⊢
  split at h
  · simp at h
  · rename_i part hpart
    simp only [Sweep.context_mapEnv, Context.hasErrors_mapEnv] at h
    obtain ⟨hc, hwrite⟩ := write_of_clean h
    obtain ⟨hc, n, hn, hno⟩ := Sweep.evaluate_of_valueOf hc
    obtain ⟨hs, o, -, hoo⟩ := Sweep.evaluate_of_valueOf hc
    simp only [hoo] at hn hno hpart hwrite
    simp only [hno] at hpart hwrite
    refine ⟨hs, n, hn, ?_⟩
    simp only [hoo, hno, hwrite, Sweep.context_mapEnv]

/-- Filling memory without a fault ends at the target. -/
theorem emitAdvance_of_clean {target fill : Expr}
    (h : (emitAdvance s location target fill).context.hasErrors = false) :
    s.context.hasErrors = false ∧ ∃ v, s.context.evaluate target = .ok v ∧
      (emitAdvance s location target fill).context = s.context.mapEnv (·.setPc v) := by
  simp only [emitAdvance] at h ⊢
  -- A target that lies back or beyond the memory is a fault; nothing is written if it is reached.
  split at h
  · simp at h
  · rename_i hback
    split at h
    · simp at h
    · rename_i hend
      split at h
      · rename_i hfill
        simp only [Sweep.context_mapEnv, Context.hasErrors_mapEnv] at h
        obtain ⟨hc, hwrite⟩ := write_of_clean h
        obtain ⟨hc, n, -, -, hcv⟩ := checkedValue_of_clean hc
        obtain ⟨hs, v, hv, hvo⟩ := Sweep.evaluate_of_valueOf hc
        refine ⟨hs, v, hv, ?_⟩
        simp only [hvo] at hback hend hfill hcv hwrite ⊢
        simp only [hback, hend, hfill, hcv, if_false, if_true, Sweep.context_mapEnv]
        rw [hcv] at hwrite
        rw [hwrite]
      · rename_i hfill
        obtain ⟨hs, v, hv, hvo⟩ := Sweep.evaluate_of_valueOf h
        refine ⟨hs, v, hv, ?_⟩
        simp only [hvo] at hback hend hfill ⊢
        simp only [hback, hend, hfill, if_false, Sweep.context_mapEnv]

theorem emitCheckPc_of_clean {target : Expr}
    (h : (emitCheckPc s location target).context.hasErrors = false) :
    s.context.hasErrors = false ∧ (emitCheckPc s location target).context = s.context := by
  simp only [emitCheckPc] at h ⊢
  split at h
  · simp at h
  · rename_i hpc
    obtain ⟨hs, v, -, hvo⟩ := Sweep.evaluate_of_valueOf h
    simp only [hvo] at hpc ⊢
    exact ⟨hs, by rw [if_neg hpc]⟩

theorem emitData_of_clean {width : Width} {endian : Endian} {values : List Expr}
    (h : (emitData s location width endian values).context.hasErrors = false) :
    s.context.hasErrors = false ∧
      (emitData s location width endian values).context =
        s.context.mapEnv (·.advancePc (Int64.ofNat (width.bytes * values.length))) := by
  simp only [emitData, Sweep.context_mapEnv, Context.hasErrors_mapEnv] at h ⊢
  obtain ⟨hs, hvalues⟩ := foldl_emitValue_of_clean h
  exact ⟨hs, by rw [hvalues]⟩

/-- **A statement that is written without a fault** is written where the layout has it. -/
theorem emit_of_clean {l : Nat × Statement}
    (h : (Visit.step emit s l).context.hasErrors = false) :
    s.context.hasErrors = false ∧
      (Visit.step emit s l).context = s.context.mapEnv (·.follow l.2.item) := by
  obtain ⟨id, location, item⟩ := l
  cases item with
  | instruction i => exact emitInstruction_of_clean h
  | data width endian values => exact emitData_of_clean h
  | byteRange offset length bytes =>
    obtain ⟨hs, n, hn, heq⟩ := emitByteRange_of_clean h
    refine ⟨hs, heq.trans ?_⟩
    simp [Context.mapEnv, Environment.follow_byteRange hn]
  | setPc target =>
    simp only [Visit.step, emit, Visit.observe, Sweep.context_mapEnv,
      Context.hasErrors_mapEnv] at h ⊢
    obtain ⟨hs, v, hv, hvo⟩ := Sweep.evaluate_of_valueOf h
    refine ⟨hs, ?_⟩
    simp [hvo, Context.mapEnv, Environment.follow_setPc hv]
  | advance target fill =>
    obtain ⟨hs, v, hv, heq⟩ := emitAdvance_of_clean h
    refine ⟨hs, heq.trans ?_⟩
    simp [Context.mapEnv, Environment.follow_advance hv]
  | checkPc target => exact emitCheckPc_of_clean h
  | scopeEnd =>
    -- Here a scope that is not open is a fault, and the layout drops nothing.
    cases hi : s.context.env.inner with
    | nil =>
      simp [Visit.step, emit, Visit.observe, Context.followStructure?, Environment.exitScope?,
        hi] at h
    | cons scope rest =>
      simp only [Visit.step, emit, Visit.observe, Context.followStructure?, Environment.exitScope?,
        hi] at h ⊢
      exact ⟨h, by simp [Context.mapEnv, Environment.follow, hi]⟩
  | macroBegin name | macroEnd | invoke name arguments =>
    simp [Visit.step, emit, Visit.observe, Context.followStructure?] at h
  | _ => exact ⟨h, rfl⟩

/-- **A branch that is written without a fault** reaches its target: it is written as its opcode and
its displacement. -/
theorem emit_branch {id : Nat} {st : Statement} {i : Instruction} {target : Expr}
    (hitem : st.item = .instruction i) (ht : i.branchTarget? = some target)
    (h : (emit s id st).1.context.hasErrors = false) :
    ∃ opcode v, s.context.cpu.opcode? i.mnemonic .relative = some opcode ∧
      s.context.evaluate target = .ok v ∧
      fitsByte (displacement v s.context.env.pc) = true ∧
      (emit s id st).1.memory.bytes = s.memory.bytes ++
        (opcode :: displacementBytes 1 (displacement v s.context.env.pc)) := by
  obtain ⟨mnemonic, addressing, operand⟩ := i
  obtain ⟨rfl, rfl⟩ : addressing = .resolved .relative ∧ operand = some target := by
    simp only [Instruction.branchTarget?] at ht
    split at ht
    · exact ⟨‹_›, ht⟩
    · cases ht
  simp only [emit, Visit.observe, hitem, emitInstruction] at h ⊢
  cases hop : s.context.cpu.opcode? mnemonic .relative with
  | none => simp [hop] at h
  | some opcode =>
    simp only [hop, emitOperand, Sweep.context_mapEnv, Context.hasErrors_mapEnv] at h ⊢
    -- Without a fault behind the displacement there is none behind the opcode.
    obtain ⟨hc, v, hv, hin, heq⟩ := emitDisplacement_of_clean h
    obtain ⟨hs, hwrite⟩ := write_of_clean hc
    simp only [hwrite] at hv hin heq ⊢
    refine ⟨opcode, v, rfl, hv, by simpa [fitsByte] using hin, ?_⟩
    simp only [heq, Sweep.mapEnv, Sweep.mapContext]
    simp

theorem forall_clean_emit {w : Workspace} (h : (w.closing {} emit).context.hasErrors = false) :
    ∀ x ∈ w.visits {} emit, (Visit.step emit x.1 x.2).context.hasErrors = false :=
  forall_reached_of_foldl (P := fun s : Sweep Image => s.context.hasErrors = false)
    (fun _ _ hs => (emit_of_clean hs).1) h

/-- **An image without a fault** was written along the layout. -/
theorem tracks_emit {w : Workspace} (h : (w.closing {} emit).context.hasErrors = false) :
    w.Tracks {} emit := fun x hx =>
  (emit_of_clean (forall_clean_emit h x hx)).2

end Pass
end Assembler6502
