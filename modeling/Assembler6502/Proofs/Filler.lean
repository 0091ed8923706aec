import Assembler6502.Proofs.Accounting
import Assembler6502.Proofs.Tours

/-!
# How much is filled

A directive fills memory from the program counter up to its target. The target is checked against
the end of memory, and against the program counter, but the program counter itself is checked by
nobody: a directive before can have taken it below zero, and then more is filled than memory holds.
The distance can even be one that no value has, while the program counter and the target are values.
As long as nothing takes the program counter below zero, in whatever segment, no directive fills
more than memory holds.

## Main definitions

* `Environment.Nonnegative`: no program counter is below zero
* `Sweep.Sinks`: a statement can take the program counter below zero

## Main results

* `Pass.nonnegative_emit`, `Pass.nonnegative_foldl`: program counters stay above zero where nothing
  sinks
* `Workspace.advance_fills`: what a directive fills, behind any statements
-/

namespace Assembler6502

/-! ## Program counters above zero -/

namespace Environment

variable {env : Environment} {v : Value}

/-- Neither the program counter nor that of a segment left before is below zero. -/
structure Nonnegative (env : Environment) : Prop where
  pc : 0 ≤ env.pc.toInt
  segments : ∀ name v, env.segments.get? name = some v → 0 ≤ v.toInt

theorem nonnegative_restart (env : Environment) : env.restart.Nonnegative :=
  ⟨Int.le_refl 0, by simp [restart]⟩

theorem Nonnegative.setPc (h : env.Nonnegative) (hv : 0 ≤ v.toInt) : (env.setPc v).Nonnegative :=
  ⟨hv, h.segments⟩

theorem Nonnegative.advancePc (h : env.Nonnegative) (hv : 0 ≤ v.toInt) :
    (env.advancePc v).Nonnegative := by
  refine ⟨?_, h.segments⟩
  have hpc := h.pc
  show 0 ≤ (Value.clamp (env.pc.toInt + v.toInt)).toInt
  rw [Value.toInt_clamp]
  omega

theorem Nonnegative.switchSegment (h : env.Nonnegative) (name : String) (writable : Bool) :
    (env.switchSegment name writable).Nonnegative := by
  have hsegments : ∀ other v,
      (env.segments.insert env.segment env.pc).get? other = some v → 0 ≤ v.toInt := by
    intro other v hv
    rw [Table.get?_insert] at hv
    split at hv
    · obtain rfl := Option.some.inj hv
      exact h.pc
    · exact h.segments other v hv
  refine ⟨?_, hsegments⟩
  show 0 ≤ (((env.segments.insert env.segment env.pc).get? name).getD 0).toInt
  cases hstored : (env.segments.insert env.segment env.pc).get? name with
  | none => decide
  | some v => exact hsegments name v hstored

end Environment

/-- A statement can take the program counter below zero: its target is below zero, or its data is
so long that its length is no value. -/
def Sweep.Sinks (s : Sweep Image) (st : Statement) : Prop :=
  match st.item with
  | .setPc target | .advance target _ => (s.valueOf st.location target).1.toInt < 0
  | .data width _ values => 2 ^ 63 ≤ width.bytes * values.length
  | _ => False

namespace Pass

open Context (Reports)

variable {s : Sweep Image} {location : Location}

theorem nonnegative_emitInstruction (h : s.context.env.Nonnegative) (i : Instruction) :
    (emitInstruction s location i).context.env.Nonnegative := by
  unfold emitInstruction
  split
  · exact h
  · split
    · exact h
    · refine Environment.Nonnegative.advancePc ?_ (by rw [i.toInt_size]; omega)
      have hwrite (opcode : UInt8) :=
        reports_write (P := fun _ => True) (fun _ _ => trivial) s location [opcode]
      split
      · rw [((hwrite _).trans (reports_emitOperand (fun _ _ => trivial) fun _ _ => trivial)).env]
        exact h
      · rw [(hwrite _).env]
        exact h

theorem nonnegative_emitData (h : s.context.env.Nonnegative) {width : Width} (endian : Endian)
    {values : List Expr} (hsize : width.bytes * values.length < 2 ^ 63) :
    (emitData s location width endian values).context.env.Nonnegative := by
  have hvalues : Sweep.Reports (fun _ => True) s
      (values.foldl (fun s e => emitValue s location width endian e) s) :=
    reports_foldl_emitValue (fun _ _ => trivial) fun _ _ _ _ => trivial
  refine Environment.Nonnegative.advancePc (by rw [hvalues.env]; exact h) ?_
  rw [Int64.toInt_ofNat_of_lt hsize]
  omega

theorem nonnegative_emitByteRange (h : s.context.env.Nonnegative) (offset length : Expr)
    (bytes : List UInt8) :
    (emitByteRange s location offset length bytes).context.env.Nonnegative := by
  have hkept : ((s.valueOf location offset).2.valueOf location length).2.context.env.Nonnegative :=
    by rwa [env_valueOf, env_valueOf]
  simp only [emitByteRange]
  split
  · exact hkept
  · rename_i part hpart
    -- A part of a file is only taken with a length that is not below zero.
    refine Environment.Nonnegative.advancePc ?_ (by rw [← length_subrange hpart]; omega)
    rw [(reports_write (P := fun _ => True) (fun _ _ => trivial) _ _ _).env]
    exact hkept

theorem nonnegative_emitAdvance (h : s.context.env.Nonnegative) {target : Expr} (fill : Expr)
    (htarget : 0 ≤ (s.valueOf location target).1.toInt) :
    (emitAdvance s location target fill).context.env.Nonnegative := by
  have hkept : (s.valueOf location target).2.context.env.Nonnegative := by
    rwa [env_valueOf]
  simp only [emitAdvance]
  split
  · exact Environment.Nonnegative.setPc hkept htarget
  · split
    · exact hkept
    · split
      · refine Environment.Nonnegative.setPc ?_ htarget
        show (write _ location _).context.env.Nonnegative
        rw [((reports_checkedValue (P := fun _ => True) (fun _ _ => trivial)
          fun _ _ => trivial).trans (reports_write (fun _ _ => trivial) _ _ _)).env]
        exact hkept
      · exact Environment.Nonnegative.setPc hkept htarget

/-- **A statement** that does not sink keeps the program counters above zero. -/
theorem nonnegative_emit (h : s.context.env.Nonnegative) {l : Nat × Statement}
    (hl : ¬ s.Sinks l.2) : (Visit.step emit s l).context.env.Nonnegative := by
  obtain ⟨id, location, item⟩ := l
  cases item with
  | instruction i => exact nonnegative_emitInstruction h i
  | data width endian values => exact nonnegative_emitData h endian (Nat.not_le.mp hl)
  | byteRange offset length bytes => exact nonnegative_emitByteRange h offset length bytes
  | advance target fill => exact nonnegative_emitAdvance h fill (Int.not_lt.mp hl)
  | setPc target =>
    have hkept : (s.valueOf location target).2.context.env.Nonnegative := by
      rwa [env_valueOf]
    exact hkept.setPc (Int.not_lt.mp hl)
  | checkPc target =>
    have hkept : (s.valueOf location target).2.context.env.Nonnegative := by
      rwa [env_valueOf]
    simp only [Visit.step, emit, Visit.observe, emitCheckPc]
    split <;> exact hkept
  | textSegment name => exact h.switchSegment name true
  | dataSegment name => exact h.switchSegment name false
  | scopeEnd =>
    simp only [Visit.step, emit, Visit.observe, Context.followStructure?]
    cases hexit : s.context.env.exitScope? with
    | error err => exact h
    | ok env =>
      -- Leaving a scope moves neither the counter nor those of the other segments.
      have hpcs : env.pc = s.context.env.pc ∧ env.segments = s.context.env.segments := by
        unfold Environment.exitScope? at hexit
        split at hexit
        · cases hexit
        · obtain rfl := Except.ok.inj hexit
          exact ⟨rfl, rfl⟩
      exact ⟨hpcs.1 ▸ h.pc, hpcs.2 ▸ h.segments⟩
  | scopeBegin => exact ⟨h.pc, h.segments⟩
  | _ => exact h

/-- **All statements**: the program counters stay above zero, or a statement that is reached
sinks. -/
theorem nonnegative_foldl (h : s.context.env.Nonnegative) {leaves : List (Nat × Statement)}
    (hleaves : ∀ x ∈ reached (Visit.step emit) s leaves, ¬ x.1.Sinks x.2.2) :
    (leaves.foldl (Visit.step emit) s).context.env.Nonnegative :=
  (foldl_invariant (P := fun t : Sweep Image => t.context.env.Nonnegative) h
    fun x hx hsofar => nonnegative_emit hsofar (hleaves x hx)).1

/-! ## Directives that fill -/

/-- The bytes and the statistics behind a directive that fills. -/
theorem memory_emitAdvance {target : Expr} (fill : Expr)
    (hpc : s.context.env.pc < (s.valueOf location target).1)
    (hend : (s.valueOf location target).1 ≤ memoryEnd) {n : Nat}
    (hn : (n : Int) = (s.valueOf location target).1.toInt - s.context.env.pc.toInt) :
    (emitAdvance s location target fill).memory.stats =
        { s.memory.stats with filler := s.memory.stats.filler + n } ∧
      (s.context.env.writable = true → ∃ b : UInt8,
        (emitAdvance s location target fill).memory.bytes =
          s.memory.bytes ++ List.replicate n b) := by
  obtain ⟨b, t, hmemory, hreports, hwritten, -⟩ := emitAdvance_of_fills fill hpc hend hn
  rw [hwritten]
  constructor
  · simp only [stats_write, hmemory]
  · intro hw
    refine ⟨b, ?_⟩
    rw [write_of_writable (by rw [hreports.env, hw]), hmemory]

end Pass

theorem Value.toInt_sub_eq_iff {a b : Value} (h : b.toInt < a.toInt) :
    (a - b).toInt = a.toInt - b.toInt ↔ a.toInt - b.toInt < 2 ^ 63 := by
  have ha := a.toInt_lt
  have hb := b.le_toInt
  rw [Int64.toInt_sub, Int.bmod_def]
  split <;> omega

theorem Assembly.image_ofSources (options : Options) (fs : FileSystem)
    (stdin : Except FileError (List UInt8)) (inputs : List Source.Input) :
    (ofSources options fs stdin inputs).image =
      (finished options (Source.read options.cpu fs stdin inputs).program
        (Source.read options.cpu fs stdin inputs).diagnostics).emit.2.2 := by
  rw [ofSources_eq, ofProgram, finished]

namespace Workspace

/-- **What a directive fills.** Let the last pass come to a directive that fills memory, behind any
statements. Unless the program counter is below the target and the target not behind memory, nothing
is written and counted. Otherwise the distance is counted as filler, and as many bytes are written
where the segment takes any; it is the difference of two values unless no value is as large. The
distance is at most the size of memory, unless the program counter is below zero, and a statement
before has taken it there. -/
theorem advance_fills (w : Workspace) (before : List (Nat × Statement)) (id : Nat)
    (location : Location) (target fill : Expr) :
    let s := before.foldl (Visit.step Pass.emit) (w.opening ({} : Image))
    let t := Visit.step Pass.emit s (id, ⟨location, .advance target fill⟩)
    let pc := s.context.env.pc
    let v := (s.valueOf location target).1
    (¬ (pc < v ∧ v ≤ memoryEnd) → t.memory = s.memory) ∧
    (pc < v → v ≤ memoryEnd → ∃ n : Nat, (n : Int) = v.toInt - pc.toInt ∧ 1 ≤ n ∧
      t.memory.stats = { s.memory.stats with filler := s.memory.stats.filler + n } ∧
      (s.context.env.writable = true → ∃ b : UInt8,
        t.memory.bytes = s.memory.bytes ++ List.replicate n b) ∧
      ((v - pc).toInt = n ↔ n < 2 ^ 63) ∧
      (0x10000 < n → pc.toInt < 0 ∧
        ∃ x ∈ reached (Visit.step Pass.emit) (w.opening {}) before, x.1.Sinks x.2.2)) := by
  intro s t pc v
  refine ⟨fun hnot => Pass.memory_emitAdvance_of_not fill hnot, fun hpc hend => ?_⟩
  have hlt : pc.toInt < v.toInt := Int64.lt_iff_toInt_lt.mp hpc
  have hle : v.toInt ≤ 0x10000 := Int64.le_iff_toInt_le.mp hend
  have hn : ((v.toInt - pc.toInt).toNat : Int) = v.toInt - pc.toInt := by omega
  obtain ⟨hstats, hbytes⟩ := Pass.memory_emitAdvance fill hpc hend hn
  refine ⟨_, hn, by omega, hstats, hbytes, ?_, fun hlarge => ?_⟩
  · rw [hn, Value.toInt_sub_eq_iff hlt]
    omega
  · have hbelow : pc.toInt < 0 := by omega
    refine ⟨hbelow, ?_⟩
    by_contra hnone
    have hstart : (w.opening ({} : Image)).context.env.Nonnegative := by
      rw [env_opening]
      exact Environment.nonnegative_restart _
    have hpcs : s.context.env.Nonnegative :=
      Pass.nonnegative_foldl hstart fun x hx hsinks => hnone ⟨x, hx, hsinks⟩
    exact absurd hpcs.pc (Int.not_le.mpr hbelow)

/-- The distance that is filled at the end of a program of two statements. -/
def finalGap? (w : Workspace) : Option Int :=
  match w.program.leaves with
  | [l, (_, ⟨location, .advance target _⟩)] =>
    let s := Visit.step Pass.emit (w.opening ({} : Image)) l
    let v := (s.valueOf location target).1
    if s.memory.stats.filler = 0 ∧ s.context.env.pc < v ∧ v ≤ memoryEnd then
      some (v.toInt - s.context.env.pc.toInt)
    else none
  | _ => none

/-- An origin, and a target up to which is filled. -/
def fillFrom (origin target : String) : Source.Input :=
  .text "fill" (" .org " ++ origin ++ "\n .advance " ++ target ++ "\n").toList ""

/-- One byte more than memory holds. -/
theorem advance_fills_belowZero :
    (Assembly.ofSources {} .empty (.ok []) [fillFrom "0-1" "65536"]).image.stats.filler =
      0x10000 + 1 := by
  have hfill (w : Workspace) (n : Nat)
      (h : w.context.hasErrors = false ∧ w.finalGap? = some (n : Int)) :
      w.emit.2.2.stats.filler = n := by
    obtain ⟨hclean, hgap⟩ := h
    unfold finalGap? at hgap
    split at hgap
    · rename_i l id location target fill hleaves
      dsimp only at hgap
      split at hgap
      · rename_i hfacts
        obtain ⟨hzero, hpc, hend⟩ := hfacts
        obtain ⟨m, hm, -, hstats, -⟩ := (advance_fills w [l] id location target fill).2 hpc hend
        have himage : w.emit.2.2 = (w.closing ({} : Image) Pass.emit).memory := by
          rw [emit, if_neg (Bool.eq_false_iff.mp hclean), sweep_eq]
        have hgap' := Option.some.inj hgap
        rw [himage, closing, hleaves]
        refine (congrArg Stats.filler hstats).trans ?_
        simp only [List.foldl_cons, List.foldl_nil] at hm hzero ⊢
        omega
      · cases hgap
    · cases hgap
  rw [Assembly.image_ofSources]
  exact hfill _ _ (by decide +kernel)

end Workspace
end Assembler6502
