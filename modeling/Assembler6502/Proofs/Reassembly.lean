import Assembler6502.Proofs.Conservativity
import Assembler6502.Proofs.Listing
import Assembler6502.Proofs.Recoding
import Assembler6502.Proofs.Tours

/-!
# Reassembly

A listing is assembled to the bytes that it was made from. A line does not tell everything about its
bytes: a target that was wrapped around, and an address in the zero page that was not stored as one,
are read as something else. Without such lines every pass stands still on a listing, apart from the
one that settles the modes, and that one finds the modes of the lines.

## Main definitions

* `Disassembly.Line.InMemory`: the branch of a line, if it is one, goes to an address in memory
* `Decoded.isOverlong`: an address in the zero page is stored in two bytes, where one would do
* `Item.settled`: the item with the mode that a constant operand asks for

## Main results

* `Disassembly.fits_linesFrom`: lines with targets in memory have the bytes that they were made from
* `Decoded.settled_readItem`: a line that is not overlong is settled as what was decoded
* `Assembly.holds_pipeline`: assembling a listing settles its modes and changes nothing else
* `Assembly.reassembles`: a listing is assembled to the bytes that it was made from
-/

namespace Assembler6502

/-! ## The bytes of lines -/

namespace Disassembly

/-- Where the branch of a line goes to, before the address is wrapped around. -/
def Line.target? (line : Line) : Option Int :=
  match line.decoded with
  | .instruction ⟨_, .resolved mode, _⟩ =>
    if mode = .relative ∨ mode = .relativeWord then
      some (line.address + 2 + signed line.bytes.tail)
    else none
  | _ => none

/-- The branch of a line, if it is one, goes to an address in memory. -/
def Line.InMemory (line : Line) : Prop :=
  ∀ target ∈ line.target?, 0 ≤ target ∧ target ≤ 0xffff

instance (line : Line) : Decidable line.InMemory :=
  inferInstanceAs (Decidable (∀ target ∈ line.target?, 0 ≤ target ∧ target ≤ 0xffff))

variable {cpu : Cpu} {address : Nat} {opcode : UInt8} {bytes rest : List UInt8}

/-- An instruction whose operand is found behind an opcode has the opcode and these bytes. -/
theorem encodable_of_operand? {m : Mnemonic} {mode : Mode} (address : Nat)
    (hopcode : cpu.opcode? m mode = some opcode) (hlength : bytes.length = mode.operandSize)
    (htarget : (mode = .relative ∨ mode = .relativeWord) →
      0 ≤ address + 2 + signed bytes ∧ address + 2 + signed bytes ≤ 0xffff) :
    Instruction.Encodable cpu address ⟨m, .resolved mode, operand? mode address bytes⟩ ∧
      Instruction.bytesAt cpu address ⟨m, .resolved mode, operand? mode address bytes⟩ =
        opcode :: bytes := by
  have hmode : cpu.hasMode m mode = true := Option.isSome_iff_exists.2 ⟨opcode, hopcode⟩
  cases bytes with
  | nil =>
    refine ⟨.bare hmode hlength.symm, ?_⟩
    simp [Instruction.bytesAt, operand?, hopcode]
  | cons b bytes =>
    obtain ⟨v, hoperand, htakes, hbytes⟩ :=
      operandBytes_of_operand? hlength (List.cons_ne_nil b bytes) htarget
    rw [hoperand]
    refine ⟨.operand hmode (by simp [← hlength]) htakes, ?_⟩
    simp [Instruction.bytesAt, hopcode, hbytes]

/-- A byte stands for itself, or it is an opcode with the bytes of an operand behind it. -/
theorem decodeLine_cases :
    decodeLine cpu address opcode rest = ⟨address, [opcode], .byte opcode⟩ ∨
      ∃ m mode bytes, cpu.opcode? m mode = some opcode ∧ bytes.length = mode.operandSize ∧
        bytes <+: rest ∧ decodeLine cpu address opcode rest = ⟨address, opcode :: bytes,
          .instruction ⟨m, .resolved mode, operand? mode address bytes⟩⟩ := by
  cases hdecode : cpu.decode? opcode with
  | none => exact .inl (by simp [decodeLine, hdecode])
  | some operation =>
    obtain ⟨m, mode⟩ := operation
    have hopcode := Cpu.opcode?_eq_some_iff.2 (Cpu.decode?_eq_some_iff.1 hdecode)
    by_cases hlength : (rest.take mode.operandSize).length = mode.operandSize
    · refine .inr ⟨m, mode, _, hopcode, hlength, List.take_prefix _ _, ?_⟩
      simp only [decodeLine, hdecode, hlength, if_true]
    · exact .inl (by simp only [decodeLine, hdecode, hlength, if_false])

/-- **What is decoded has the bytes that it was decoded from**, and the input starts with them. -/
theorem decodeLine_encodable (h : (decodeLine cpu address opcode rest).InMemory) :
    (decodeLine cpu address opcode rest).decoded.Encodable cpu address ∧
      (decodeLine cpu address opcode rest).decoded.bytesAt cpu address =
        (decodeLine cpu address opcode rest).bytes ∧
      (decodeLine cpu address opcode rest).bytes <+: opcode :: rest := by
  obtain hline | ⟨m, mode, bytes, hopcode, hlength, hprefix, hline⟩ :=
    @decodeLine_cases cpu address opcode rest
  · rw [hline]
    exact ⟨trivial, rfl, List.cons_prefix_cons.2 ⟨rfl, List.nil_prefix⟩⟩
  · rw [hline] at h ⊢
    obtain ⟨hencodable, hbytes⟩ := encodable_of_operand? address hopcode hlength
      fun hrel => h _ (if_pos hrel)
    exact ⟨hencodable, hbytes, List.cons_prefix_cons.2 ⟨rfl, hprefix⟩⟩

/-- **Lines have the bytes that they were made from**, one after the other. -/
theorem fits_linesFrom : ∀ {fuel : Nat} {address : Nat} {bytes : List UInt8},
    bytes.length ≤ fuel → (∀ line ∈ linesFrom cpu fuel address bytes, line.InMemory) →
      Decoded.Fits cpu address ((linesFrom cpu fuel address bytes).map (·.decoded)) ∧
        Decoded.image cpu address ((linesFrom cpu fuel address bytes).map (·.decoded)) = bytes
  | 0, address, bytes, hfuel, _ => by
    obtain rfl := List.length_eq_zero_iff.1 (Nat.le_zero.1 hfuel)
    exact ⟨trivial, rfl⟩
  | fuel + 1, address, [], _, _ => ⟨trivial, rfl⟩
  | fuel + 1, address, opcode :: rest, hfuel, h => by
    obtain ⟨hline, hlines⟩ := List.forall_mem_cons.1 h
    -- The line has the first bytes, at least one of them, and the lines behind it have the others.
    obtain ⟨hencodable, hbytes, tail, htail⟩ := decodeLine_encodable hline
    have hsize := Decoded.length_bytesAt hencodable
    have hpos := Decoded.size_pos (d := (decodeLine cpu address opcode rest).decoded)
    rw [hbytes] at hsize
    have hdrop :
        (opcode :: rest).drop (decodeLine cpu address opcode rest).decoded.size = tail := by
      rw [← hsize, ← htail, List.drop_left]
    have hshort : tail.length ≤ fuel := by
      have := congrArg List.length htail
      simp only [List.length_append, List.length_cons] at this hfuel
      omega
    simp only [hsize, hdrop] at hlines
    obtain ⟨hfits, himage⟩ := fits_linesFrom hshort hlines
    simp only [linesFrom, hsize, hdrop, List.map_cons, Decoded.image, hbytes, himage, htail,
      and_true]
    exact ⟨hencodable, hfits⟩

theorem fits_ofBytes {origin : Nat} (h : ∀ line ∈ ofBytes cpu origin bytes, line.InMemory) :
    Decoded.Fits cpu origin ((ofBytes cpu origin bytes).map (·.decoded)) ∧
      Decoded.image cpu origin ((ofBytes cpu origin bytes).map (·.decoded)) = bytes :=
  fits_linesFrom (Nat.le_refl _) h

end Disassembly

/-! ## Passes that stand still -/

namespace Workspace

/-- Nothing has happened yet, and the program has these items. -/
structure Holds (cpu : Cpu) (items : List Item) (w : Workspace) : Prop where
  context : w.context = { cpu }
  items : w.program.leaves.map (·.2.item) = items

variable {μ : Type} {cpu : Cpu} {items : List Item} {w : Workspace} {memory : μ} {visit : Visit μ}

theorem Holds.item_mem (h : w.Holds cpu items) {l : Nat × Statement} (hl : l ∈ w.program.leaves) :
    l.2.item ∈ items :=
  h.items ▸ List.mem_map_of_mem hl

theorem Holds.clean (h : w.Holds cpu items) : w.Clean := by
  rw [Clean, h.context]
  rfl

theorem Holds.rested (h : w.Holds cpu items) : w.Rested := by
  rw [Rested, h.context]
  rfl

/-- **A pass that stands still** at every statement and only replaces items has no other effect. -/
theorem Holds.sweep {close : Context → Context} (h : w.Holds cpu items)
    (hclose : close { cpu } = { cpu }) (f : Item → Item)
    (hvisit : ∀ s : Sweep μ, s.context = { cpu } → s.memory = memory → ∀ id st, st.item ∈ items →
      visit s id st = (s, .leaf id ⟨st.location, f st.item⟩)) :
    (w.sweep memory visit close).1.Holds cpu (items.map f) ∧
      (w.sweep memory visit close).2.1 = false := by
  have hopening : (w.opening memory).context = { cpu } := h.rested.restart.trans h.context
  have hleaf : ∀ l ∈ w.program.leaves, visit (w.opening memory) l.1 l.2 =
      (w.opening memory, .leaf l.1 ⟨l.2.location, f l.2.item⟩) := fun l hl =>
    hvisit _ hopening rfl l.1 l.2 (h.item_mem hl)
  -- The pass is in the state in which it began wherever it comes.
  have hstill : w.closing memory visit = w.opening memory ∧
      ∀ x ∈ w.visits memory visit, x.1 = w.opening memory := by
    refine foldl_invariant (P := fun s => s = w.opening memory) rfl fun x hx hs => ?_
    rw [hs]
    exact congrArg Prod.fst (hleaf x.2 (mem_of_mem_reached hx))
  refine ⟨⟨?_, ?_⟩, ?_⟩
  · rw [sweep_eq, hstill.1]
    simp only [hopening, hclose]
    rfl
  · have hleaves : (w.sweep memory visit close).1.program.leaves =
        w.program.leaves.map fun l => (l.1, ⟨l.2.location, f l.2.item⟩) := by
      rw [leaves_sweep, ← flatMap_reached (f := visit.step) (s := w.opening memory)]
      refine List.flatMap_congr fun x hx => ?_
      rw [hstill.2 x hx, hleaf x.2 (mem_of_mem_reached hx)]
      rfl
    rw [hleaves, ← h.items, List.map_map, List.map_map]
    rfl
  · rw [sweep_eq, hstill.1]
    rfl

end Workspace

/-! ## Statements of a listing -/

/-- An item whose expressions are constants and that leaves labels, scopes and segments alone. -/
inductive Item.Constant : Item → Prop
  | setPc (v : Value) : Constant (.setPc (.constant v))
  | bare (m : Mnemonic) (mode : Mode) : Constant (.instruction ⟨m, .resolved mode, none⟩)
  | operand (m : Mnemonic) (a : Addressing) (v : Value) :
    Constant (.instruction ⟨m, a, some (.constant v)⟩)
  | data (width : Width) (endian : Endian) (v : Value) : Constant (.data width endian [.constant v])

theorem Item.Constant.simple {item : Item} (h : item.Constant) : item.Simple := by
  cases h <;> trivial

/-- The instruction with the mode that a constant operand asks for. -/
def Instruction.settled (cpu : Cpu) (i : Instruction) : Instruction :=
  match i.addressing, i.operand with
  | .pending shape, some (.constant v) =>
    match i.branchMode? cpu with
    | some mode => i.inMode mode
    | none => (i.narrowed? cpu v).getD (i.inMode shape.absolute)
  | _, _ => i

/-- The item with the mode that a constant operand asks for. -/
def Item.settled (cpu : Cpu) : Item → Item
  | .instruction i => .instruction (i.settled cpu)
  | item => item

namespace Pass

variable {id : Nat} {st : Statement}

theorem initLabels_constant {s : Sweep Discovery} (h : st.item.Constant)
    (hs : s.memory.pcKnown = true) : initLabels s id st = (s, .leaf id st) := by
  have hstructure := Sweep.followStructure_simple h.simple s
  obtain ⟨location, item⟩ := st
  obtain ⟨c, size, changed, ⟨definitions, reported, rounds, pcKnown⟩⟩ := s
  cases h <;>
    simp_all [initLabels, Visit.observe]

theorem checkCircularity_constant {s : Sweep Bool} (h : st.item.Constant)
    (hs : s.memory = true) : checkCircularity s id st = (s, .leaf id st) := by
  have hstructure := Sweep.followStructure_simple h.simple s
  obtain ⟨location, item⟩ := st
  obtain ⟨c, size, changed, known⟩ := s
  cases h <;>
    simp_all [checkCircularity, Visit.observe, checkTarget]

theorem checkExpressions_constant {s : Sweep Unit} (h : st.item.Constant) :
    checkExpressions s id st = (s, .leaf id st) := by
  obtain ⟨location, item⟩ := st
  cases h <;> rfl

/-- The pass settles what a constant operand asks for. -/
theorem easyModes_constant {s : Sweep Unit} (h : st.item.Constant) :
    easyModes s id st = (s, .leaf id ⟨st.location, st.item.settled s.context.cpu⟩) := by
  obtain ⟨location, item⟩ := st
  cases h with
  | operand m a v =>
    cases a with
    | resolved mode => rfl
    | pending shape =>
      simp only [easyModes, Item.settled, Instruction.settled]
      cases Instruction.branchMode? s.context.cpu ⟨m, .pending shape, some (.constant v)⟩ <;> rfl
  | _ => rfl

end Pass

/-! ## Modes that are settled -/

/-- The mode of the zero page that is written like a mode with an absolute address. -/
def Mode.zeroPage? : Mode → Option Mode
  | absolute => some zeroPage
  | absoluteX => some zeroPageX
  | absoluteY => some zeroPageY
  | indirect => some zeroPageIndirect
  | indexedIndirect => some zeroPageIndexedIndirect
  | indirectIndexed => some zeroPageIndirectIndexed
  | _ => none

/-- Whether an address in the zero page is stored in two bytes, while the operation has the mode in
which it would be stored in one. -/
def Decoded.isOverlong (cpu : Cpu) : Decoded → Bool
  | .instruction ⟨m, .resolved mode, some (.constant v)⟩ =>
    v < zeroPageEnd && mode.zeroPage?.any (cpu.hasMode m)
  | _ => false

section Modes

variable {cpu : Cpu} {m : Mnemonic} {mode : Mode} {shape : OperandShape} {e : Option Expr}
  {v : Value}

theorem Cpu.hasMode_branch_iff (h : cpu.hasMode m mode = true) {branch : Mode}
    (hbranch : branch = .relative ∨ branch = .relativeWord) :
    cpu.hasMode m branch = true ↔ mode = branch := by
  refine ⟨fun hb => ?_, fun heq => heq ▸ h⟩
  obtain ⟨hshort, hlong, -⟩ := mode_of_operation h
  obtain ⟨hshort', hlong', -⟩ := mode_of_operation hb
  obtain rfl | rfl := hbranch
  · exact hshort.2 (hshort'.1 rfl)
  · exact hlong.2 (hlong'.1 rfl)

theorem Instruction.branchMode?_of_hasMode (h : cpu.hasMode m mode = true)
    (hshape : mode.shape? = some shape) :
    branchMode? cpu ⟨m, .pending shape, e⟩ =
      if mode = .relative ∨ mode = .relativeWord then some mode else none := by
  have hshort := Cpu.hasMode_branch_iff h (.inl rfl)
  have hlong := Cpu.hasMode_branch_iff h (.inr rfl)
  cases mode <;> cases hshape <;>
    simp [branchMode?, Bool.eq_false_iff.2, hshort, hlong]

/-- What is written with a shape has the mode of the zero page or the absolute one, unless it has a
displacement. -/
theorem Mode.eq_of_shape? (hshape : mode.shape? = some shape)
    (hrel : ¬ (mode = .relative ∨ mode = .relativeWord)) :
    (mode = shape.zeroPage ∧ mode.operandSize = 1) ∨
      (mode = shape.absolute ∧ mode.zeroPage? = some shape.zeroPage) := by
  cases mode <;> cases hshape <;> simp_all [OperandShape.zeroPage, OperandShape.absolute, zeroPage?,
    operandSize]

theorem Mode.Takes.lt_zeroPageEnd {address : Nat} (h : mode.Takes address v)
    (hrel : ¬ (mode = .relative ∨ mode = .relativeWord)) (hsize : mode.operandSize = 1) :
    v < zeroPageEnd := by
  rw [Takes, if_neg hrel, hsize] at h
  exact Int64.lt_iff_toInt_lt.2 h.2

end Modes

namespace Decoded

variable {cpu : Cpu} {address : Nat} {d : Decoded}

theorem constant_item (h : d.Encodable cpu address) : d.item.Constant := by
  cases d with
  | byte b => exact .data _ _ _
  | instruction i =>
    cases h with
    | bare hmode hsize => exact .bare _ _
    | operand hmode hsize hv => exact .operand _ _ _

theorem constant_readItem (h : d.Encodable cpu address) : d.readItem.Constant := by
  cases d with
  | byte b => exact .data _ _ _
  | instruction i =>
    cases h with
    | @bare m mode hmode hsize =>
      obtain rfl : mode = .implied := by cases mode <;> cases hsize; rfl
      exact .bare _ _
    | @operand m mode v hmode hsize hv =>
      cases mode <;> exact .operand _ _ _

theorem Fits.encodable {ds : List Decoded} (h : Fits cpu address ds) (hd : d ∈ ds) :
    ∃ a, d.Encodable cpu a := by
  induction ds generalizing address with
  | nil => cases hd
  | cons _ ds ih =>
    obtain _ | ⟨_, hd⟩ := hd
    · exact ⟨address, h.1⟩
    · exact ih h.2 hd

/-- **A line that is not overlong is settled** as what was decoded. -/
theorem settled_readItem (h : d.Encodable cpu address) (hlong : d.isOverlong cpu = false) :
    d.readItem.settled cpu = d.item := by
  cases d with
  | byte b => rfl
  | instruction i =>
    cases h with
    | @bare m mode hmode hsize =>
      obtain rfl : mode = .implied := by cases mode <;> cases hsize; rfl
      rfl
    | @operand m mode v hmode hsize hv =>
      cases hshape : mode.shape? with
      | none => simp [readItem, Instruction.asRead, hshape, Item.settled, Instruction.settled, item]
      | some shape =>
        simp only [readItem, Instruction.asRead, hshape, Item.settled, Instruction.settled, item,
          Instruction.branchMode?_of_hasMode hmode hshape]
        by_cases hrel : mode = .relative ∨ mode = .relativeWord
        · simp only [hrel, if_true, Instruction.inMode]
        · simp only [hrel, if_false, Instruction.narrowed?, Instruction.inMode]
          -- An operand of one byte is narrowed back; one of two bytes must not be narrowed.
          obtain ⟨rfl, hone⟩ | ⟨rfl, hsmall⟩ := Mode.eq_of_shape? hshape hrel
          · simp [hv.lt_zeroPageEnd hrel hone, hmode]
          · simp only [isOverlong, hsmall, Option.any_some] at hlong
            simp [hlong]

end Decoded

/-! ## The layout of a listing -/

theorem Decoded.size_le (d : Decoded) : d.size ≤ 3 := by
  cases d with
  | byte b => exact Nat.le_of_ble_eq_true rfl
  | instruction i =>
    simp only [size, Instruction.size]
    split
    · exact Nat.le_refl 3
    · rename_i mode _
      have := mode.operandSize_le
      omega

namespace Environment

variable {cpu : Cpu} {address : Nat} {ds : List Decoded} {env : Environment}
  {leaves : List (Nat × Statement)}

theorem follow_item (hpc : env.pc = Value.clamp address) (d : Decoded) :
    env.follow d.item = { env with pc := Value.clamp (address + d.size : Nat) } := by
  have hsize := d.size_le
  have hfollow : env.follow d.item = env.advancePc (Int64.ofNat d.size) := by cases d <;> rfl
  rw [hfollow, advancePc, hpc, Value.saturatingAdd_clamp _ _ (by omega)]

/-- **A listing is laid out at the addresses of its lines.** -/
theorem layout_of_fits (hpc : env.pc = Value.clamp address) (h : Decoded.Fits cpu address ds)
    (hitems : leaves.map (·.2.item) = ds.map Decoded.item) :
    (env.layoutEnd leaves).inner = env.inner ∧
      ∀ y ∈ env.layout leaves, ∃ (d : Decoded) (a : Nat), d.Encodable cpu a ∧
        y.2.2.item = d.item ∧ y.1.pc = Value.clamp a := by
  -- The counter goes from the address of each line to that of the next.
  induction ds generalizing env address leaves with
  | nil =>
    obtain rfl := List.map_eq_nil_iff.1 hitems
    exact ⟨rfl, fun y hy => nomatch hy⟩
  | cons d ds ih =>
    obtain ⟨hd, hds⟩ := h
    obtain ⟨l, leaves, rfl, hitem, hitems⟩ := List.map_eq_cons_iff.1 hitems
    have hpc' : (env.follow l.2.item).pc = Value.clamp (address + d.size : Nat) := by
      rw [hitem, follow_item hpc]
    obtain ⟨hinner, hlayout⟩ := ih hpc' hds hitems
    refine ⟨hinner.trans (by rw [hitem, follow_item hpc]), ?_⟩
    rintro y (_ | ⟨_, hy⟩)
    · exact ⟨d, address, hd, hitem, hpc⟩
    · exact hlayout y hy

end Environment

namespace Pass

variable {s : Sweep Unit} {id : Nat} {st : Statement} {cpu : Cpu} {address : Nat} {d : Decoded}

theorem normalizeModes_item (hd : d.Encodable cpu address) (hitem : st.item = d.item) :
    normalizeModes s id st = (s, .leaf id st) := by
  have hstructure := Sweep.followStructure_simple (hitem ▸ (d.constant_item hd).simple) s
  cases d with
  | byte b => simp only [normalizeModes, hitem, Decoded.item, hstructure]
  | instruction i => cases hd <;> simp only [normalizeModes, hitem, Decoded.item]

theorem followable_item (env : Environment) (d : Decoded) : env.Followable d.item := by
  cases d <;> trivial

theorem updateLabels_item (hitem : st.item = d.item) :
    updateLabels s id st = (s.mapEnv (·.follow st.item), .leaf id st) := by
  rw [← Sweep.follow_eq (hitem ▸ followable_item _ d)]
  cases d <;> simp only [updateLabels, Visit.observe, hitem, Decoded.item]

/-- Collapsing leaves a line alone: an operand in the zero page is small. -/
theorem collapse_item (hd : d.Encodable cpu address) (hitem : st.item = d.item) :
    collapse s id st = (s.mapEnv (·.follow st.item), .leaf id st) := by
  rw [← Sweep.follow_eq (hitem ▸ followable_item _ d)]
  cases d with
  | byte b => simp only [collapse, hitem, Decoded.item]
  | instruction i =>
    have hsame : resized? s st.location i = (none, s) := by
      cases hd with
      | @bare m mode hmode hsize =>
        obtain rfl : mode = .implied := by cases mode <;> cases hsize; rfl
        rfl
      | @operand m mode v hmode hsize hv =>
        have hvalue : s.valueOf st.location (.constant v) = (v, s) :=
          Sweep.valueOf_of_evaluate (by rfl)
        simp only [resized?, isResizable, operandValue, hvalue, Instruction.narrowed?,
          Instruction.widened?, Option.none_or]
        cases hwide : mode.widened? with
        | none => rfl
        | some wide =>
          -- Only a mode of the zero page has a wider one, and its operand fits one byte.
          have hzp : ¬ (mode = .relative ∨ mode = .relativeWord) ∧ mode.operandSize = 1 := by
            cases mode <;> cases hwide <;> decide
          have hlt : ¬ zeroPageEnd ≤ v := Int64.not_le.2 (hv.lt_zeroPageEnd hzp.1 hzp.2)
          simp [hlt]
    simp only [collapse, hitem, Decoded.item, hsame]

/-- A target that a branch takes is in its reach. -/
theorem fitsByte_of_takes {v : Value} (h : Mode.relative.Takes address v) :
    fitsByte (displacement v (Value.clamp address)) = true := by
  have hsmall : (Int64.ofInt (v.toInt - (address + 2))).toInt = v.toInt - (address + 2) := by
    obtain ⟨-, hback, hforth, -⟩ := h.displacement (.inl rfl)
    exact Int64.toInt_ofInt_of_le (by omega) (by omega)
  rw [displacement_clamp (.inl rfl) h]
  rw [Mode.Takes, if_pos (.inl rfl)] at h
  obtain ⟨-, hback, hforth⟩ := h
  simp only [fitsByte, Bool.and_eq_true, decide_eq_true_eq, Int64.le_iff_toInt_le, hsmall]
  exact ⟨hback, Int.le_of_lt_add_one hforth⟩

/-- The extension leaves a line alone: its branch goes no further than a byte tells. -/
theorem extendBranches_item (hd : d.Encodable cpu address) (hitem : st.item = d.item)
    (hpc : s.context.env.pc = Value.clamp address) :
    extendBranches s id st = (s.mapEnv (·.follow st.item), .leaf id st) := by
  refine extendBranches_observed (l := (id, st)) (hitem ▸ followable_item _ d) ?_
  intro m target hbranch
  replace hbranch := hitem.symm.trans (Item.branch?_eq_some.1 hbranch)
  cases d with
  | byte b => cases hbranch
  | instruction i =>
    cases hd with
    | bare hmode hsize => cases hbranch
    | @operand _ mode v hmode hsize hv =>
      cases hbranch
      exact ⟨v, rfl, hpc ▸ fitsByte_of_takes hv⟩

end Pass

/-! ## Stages -/

namespace Workspace

variable {cpu : Cpu} {items : List Item} {origin : Nat} {ds : List Decoded} {w : Workspace}

theorem Holds.sweep_self {μ : Type} {memory : μ} {visit : Visit μ} {close : Context → Context}
    (h : w.Holds cpu items) (hclose : close { cpu } = { cpu })
    (hvisit : ∀ s : Sweep μ, s.context = { cpu } → s.memory = memory → ∀ id st, st.item ∈ items →
      visit s id st = (s, .leaf id st)) :
    (w.sweep memory visit close).1.Holds cpu items ∧ (w.sweep memory visit close).2.1 = false := by
  simpa using h.sweep hclose id hvisit

/-- The items of a listing when its modes are settled. -/
def listed (origin : Nat) (ds : List Decoded) : List Item :=
  .setPc (.constant (Value.clamp origin)) :: ds.map Decoded.item

/-- A pass that follows the layout of a listing returns it. -/
theorem Holds.sweep_layout {visit : Visit Unit} (h : w.Holds cpu (listed origin ds))
    (hfits : Decoded.Fits cpu origin ds)
    (horigin : ∀ (s : Sweep Unit) id st v, st.item = .setPc (.constant v) →
      visit s id st = (s.mapEnv (·.follow st.item), .leaf id st))
    (hvisit : ∀ (s : Sweep Unit) id st (d : Decoded) (address : Nat), d.Encodable cpu address →
      st.item = d.item → s.context.env.pc = Value.clamp address →
        visit s id st = (s.mapEnv (·.follow st.item), .leaf id st)) :
    w.sweep () visit id = (w, false, ()) := by
  obtain ⟨l, leaves, hleaves, hitem, hitems⟩ := List.map_eq_cons_iff.1 h.items
  have hpc : (w.context.env.follow l.2.item).pc = Value.clamp origin := by rw [hitem]; rfl
  have hinner : (w.context.env.follow l.2.item).inner = [] := by rw [hitem, h.context]; rfl
  obtain ⟨hend, hlayout⟩ := Environment.layout_of_fits hpc hfits hitems
  refine (observes_of_layout fun y hy => ?_).sweep_eq h.rested ?_
  · rw [h.rested.env_restart, hleaves] at hy
    obtain _ | ⟨_, hy⟩ := hy
    · exact horigin _ _ _ _ hitem
    · obtain ⟨d, address, hd, hyitem, hypc⟩ := hlayout y hy
      exact hvisit _ _ _ d address hd hyitem hypc
  · rw [hleaves]
    exact hend.trans hinner

end Workspace

namespace Stage

open Workspace (Holds listed)

variable {cpu : Cpu} {items : List Item} {origin : Nat} {ds : List Decoded}

/-- **The stages before the modes are settled** stand still on constant items. -/
theorem still_preparation (h : ∀ item ∈ items, item.Constant) :
    ∀ stage ∈ preparation.dropLast, stage.Still (Holds cpu items) := by
  have hclean : ∀ w, Holds cpu items w → w.Clean := fun w hw => hw.clean
  have hdefine : (pass .defineMacros).Still (Holds cpu items) := .pass fun w d hw => by
    have hrun : w.runPass .defineMacros d = _ := if_neg (Bool.eq_false_iff.1 hw.clean)
    rw [hrun]
    exact hw.sweep_self rfl fun s hs _ id st hst =>
      Pass.defineMacros_simple (h _ hst).simple (by rw [hs]; rfl)
  have hexpand : (pass .expandMacros).Still (Holds cpu items) := .pass fun w d hw => by
    rw [Workspace.runPass_of_visit rfl hw.clean]
    exact hw.sweep_self rfl fun s _ _ id st hst => Pass.expandMacros_simple (h _ hst).simple
  have hinit : (pass .initLabels).Still (Holds cpu items) := .pass fun w d hw => by
    rw [Workspace.runPass_initLabels hw.clean]
    exact hw.sweep_self rfl fun s _ hs id st hst =>
      Pass.initLabels_constant (h _ hst) (by rw [hs]; rfl)
  have hcircular : (pass .checkCircularity).Still (Holds cpu items) := .pass fun w d hw => by
    have hrun : w.runPass .checkCircularity d = _ := if_neg (Bool.eq_false_iff.1 hw.clean)
    rw [hrun]
    exact hw.sweep_self rfl fun s _ hs id st hst => Pass.checkCircularity_constant (h _ hst) hs
  have hcheck : (pass .checkExpressions).Still (Holds cpu items) := .pass fun w d hw => by
    rw [Workspace.runPass_of_visit rfl hw.clean]
    exact hw.sweep_self rfl fun s _ _ id st hst => Pass.checkExpressions_constant (h _ hst)
  have hgroup : ∀ {name kind}, (pass kind).Still (Holds cpu items) →
      (fixpoint name [pass kind]).Still (Holds cpu items) := fun hpass =>
    .fixpoint hclean fun stage hstage => List.mem_singleton.1 hstage ▸ hpass
  simpa [preparation] using
    ⟨hdefine, hgroup hexpand, hgroup hinit, hcircular, hcheck⟩

/-- A pass that follows the layout of a listing stands still on it. -/
theorem still_of_layout {kind : Pass.Kind} {visit : Visit Unit} (hkind : kind.visit? = some visit)
    (hfits : Decoded.Fits cpu origin ds)
    (horigin : ∀ (s : Sweep Unit) id st v, st.item = .setPc (.constant v) →
      visit s id st = (s.mapContext (·.follow st), .leaf id st))
    (hvisit : ∀ (s : Sweep Unit) id st (d : Decoded) (address : Nat), d.Encodable cpu address →
      st.item = d.item → s.context.env.pc = Value.clamp address →
        visit s id st = (s.mapEnv (·.follow st.item), .leaf id st)) :
    (pass kind).Still (Holds cpu (listed origin ds)) := .pass fun w d hw => by
  rw [Workspace.runPass_of_visit hkind hw.clean, hw.sweep_layout hfits]
  · exact ⟨hw, rfl⟩
  · intro s id st v hitem
    rw [← Sweep.follow_eq (hitem ▸ ⟨v, rfl⟩), horigin s id st v hitem]
  · exact hvisit

/-- **The stages after the modes are settled** stand still on a listing. -/
theorem still_selection (hfits : Decoded.Fits cpu origin ds) :
    ∀ stage ∈ [selection true, pass .normalizeModes, pass .updateLabels],
      stage.Still (Holds cpu (listed origin ds)) := by
  have hclean : ∀ w, Holds cpu (listed origin ds) w → w.Clean := fun w hw => hw.clean
  have hupdate : (pass .updateLabels).Still (Holds cpu (listed origin ds)) :=
    still_of_layout rfl hfits
      (fun s id st v hitem => by rw [Pass.updateLabels, Visit.observe, hitem])
      fun s id st d address _ hitem _ => Pass.updateLabels_item hitem
  have hcollapse : (pass .collapse).Still (Holds cpu (listed origin ds)) :=
    still_of_layout rfl hfits (fun s id st v hitem => by rw [Pass.collapse, hitem])
      fun s id st d address hd hitem _ => Pass.collapse_item hd hitem
  have hextend : (pass .extendBranches).Still (Holds cpu (listed origin ds)) :=
    still_of_layout rfl hfits
      (fun s id st v hitem => by rw [Pass.extendBranches, Pass.extendBranch, hitem])
      fun s id st d address hd hitem hpc => Pass.extendBranches_item hd hitem hpc
  have hnormalize : (pass .normalizeModes).Still (Holds cpu (listed origin ds)) :=
    .pass fun w d hw => by
      rw [Workspace.runPass_of_visit rfl hw.clean]
      refine hw.sweep_self rfl fun s _ _ id st hst => ?_
      obtain hitem | hst := List.mem_cons.1 hst
      · have hconstant : st.item.Constant := hitem ▸ .setPc _
        have hstructure := Sweep.followStructure_simple hconstant.simple s
        simp only [Pass.normalizeModes, hitem, hstructure]
      · obtain ⟨d, hd, hitem⟩ := List.mem_map.1 hst
        obtain ⟨address, hd⟩ := hfits.encodable hd
        exact Pass.normalizeModes_item hd hitem.symm
  -- A fixed point of stages that stand still stands still, from the inside out.
  have hplacement : placement.Still (Holds cpu (listed origin ds)) :=
    .fixpoint hclean (by simpa using hupdate)
  have hsizing : sizing.Still (Holds cpu (listed origin ds)) :=
    .fixpoint hclean (by simpa using ⟨hplacement, hcollapse⟩)
  have hselection : (selection true).Still (Holds cpu (listed origin ds)) :=
    .fixpoint hclean (by simpa using ⟨hsizing, hextend⟩)
  simpa using ⟨hselection, hnormalize, hupdate⟩

end Stage

namespace Assembly

variable {cpu : Cpu} {origin : Nat} {ds : List Decoded} {w : Workspace}

/-- **Assembling a listing** settles its modes and changes nothing else. -/
theorem holds_pipeline (hfits : Decoded.Fits cpu origin ds)
    (hlong : ∀ d ∈ ds, d.isOverlong cpu = false)
    (hw : w.Holds cpu (.setPc (.constant (Value.clamp origin)) :: ds.map Decoded.readItem)) :
    (runStages (Stage.pipeline true) w).Holds cpu (Workspace.listed origin ds) := by
  have hconstant : ∀ item ∈ .setPc (.constant (Value.clamp origin)) :: ds.map Decoded.readItem,
      item.Constant := by
    refine List.forall_mem_cons.2 ⟨.setPc _, fun item hitem => ?_⟩
    obtain ⟨d, hd, rfl⟩ := List.mem_map.1 hitem
    obtain ⟨address, hd⟩ := hfits.encodable hd
    exact d.constant_readItem hd
  have hitems : (.setPc (.constant (Value.clamp origin)) :: ds.map Decoded.readItem).map
      (Item.settled cpu) = Workspace.listed origin ds := by
    rw [List.map_cons, List.map_map, Workspace.listed]
    refine congrArg _ (List.map_congr_left fun d hd => ?_)
    obtain ⟨address, hencodable⟩ := hfits.encodable hd
    exact Decoded.settled_readItem hencodable (hlong d hd)
  -- Modes are settled by one stage; those before it and those behind it stand still.
  have hprepared := Stage.Still.runStages (Stage.still_preparation hconstant) hw
  have hsettled : ((Stage.pass .easyModes).go (runStages Stage.preparation.dropLast w)).1.Holds cpu
      (Workspace.listed origin ds) := by
    rw [Stage.go_pass_of_visit rfl hprepared.clean, ← hitems]
    refine (hprepared.sweep rfl _ fun s hs _ id st hst => ?_).1
    rw [Pass.easyModes_constant (hconstant _ hst), hs]
  have hpipeline : Stage.pipeline true = Stage.preparation.dropLast ++ .pass .easyModes ::
    [Stage.selection true, .pass .normalizeModes, .pass .updateLabels] := rfl
  rw [hpipeline, runStages, List.foldl_append, List.foldl_cons]
  exact Stage.Still.runStages (Stage.still_selection hfits) hsettled

/-- A listing as it is read is assembled without a fault, to the bytes of what was decoded. -/
theorem ofProgram_listing {program : Program} (hfits : Decoded.Fits cpu origin ds)
    (hlong : ∀ d ∈ ds, d.isOverlong cpu = false)
    (hitems : program.leaves.map (·.2.item) =
      .setPc (.constant (Value.clamp origin)) :: ds.map Decoded.readItem) :
    (ofProgram ⟨cpu, true⟩ program {}).diagnostics.hasErrors = false ∧
      (ofProgram ⟨cpu, true⟩ program {}).image.bytes.toList = Decoded.image cpu origin ds := by
  have hend := holds_pipeline hfits hlong (w := start ⟨cpu, true⟩ program {}) ⟨rfl, hitems⟩
  unfold ofProgram
  generalize runStages (Stage.pipeline true) (start ⟨cpu, true⟩ program {}) = w at hend ⊢
  have hemit := Workspace.emit_image (w := w) (by rw [hend.context]) hend.clean
    (by rw [hend.context]) hend.items hfits
  exact hemit

/-- **A listing is assembled to the bytes that it was made from**: whatever the bytes are, if no
branch among them goes out of memory and no address in the zero page is stored longer than it has to
be, then the lines below their origin are assembled without a fault, and to these bytes. -/
theorem reassembles (cpu : Cpu) (origin : UInt16) (bytes : List UInt8) (fs : FileSystem)
    (name : String) (numeral : List Char) (hword : Cursor.IsWord numeral = true)
    (hnumeral : (Cursor.classify numeral).value = .ok (Int64.ofNat origin.toNat))
    (hmemory : ∀ line ∈ Disassembly.ofBytes cpu origin.toNat bytes, line.InMemory)
    (hlong : ∀ line ∈ Disassembly.ofBytes cpu origin.toNat bytes,
      line.decoded.isOverlong cpu = false) :
    (ofText ⟨cpu, true⟩ fs name (Decoded.source numeral
        ((Disassembly.ofBytes cpu origin.toNat bytes).map (·.decoded)))).diagnostics.hasErrors =
        false ∧
      (ofText ⟨cpu, true⟩ fs name (Decoded.source numeral
        ((Disassembly.ofBytes cpu origin.toNat bytes).map (·.decoded)))).image.bytes.toList =
        bytes := by
  obtain ⟨hfits, himage⟩ := Disassembly.fits_ofBytes hmemory
  rw [← Value.clamp_toNat] at hnumeral
  obtain ⟨hdiagnostics, hitems⟩ := Source.read_source fs (.ok []) name hword hnumeral hfits
  simp only [ofText, ofSources_eq, hdiagnostics]
  obtain ⟨hclean, hbytes⟩ := ofProgram_listing hfits (List.forall_mem_map.2 hlong) hitems
  exact ⟨hclean, hbytes.trans himage⟩

/-- Branches in both directions, an indexed address in the zero page that has no shorter form, a
byte that is no opcode, and an instruction that is cut short. -/
def mixedBytes : List UInt8 :=
  [0xa9, 0x01, 0x99, 0x12, 0x00, 0xd0, 0xf9, 0x02, 0x6c, 0xfe, 0xff, 0xf0, 0x7f, 0x4c, 0x00]

theorem reassembles_mixedBytes :
    (Disassembly.ofBytes .mos6502 0x8000 mixedBytes).map (·.decoded.text) =
        ["LDA #$01", "STA $0012,Y", "BNE $8000", ".byte $02", "JMP ($FFFE)", "BEQ $808C",
          ".byte $4C", "BRK"] ∧
      (∀ line ∈ Disassembly.ofBytes .mos6502 0x8000 mixedBytes,
        line.InMemory ∧ line.decoded.isOverlong .mos6502 = false) ∧
      (ofText {} .empty "listing" (Decoded.source "$8000".toList
        ((Disassembly.ofBytes .mos6502 0x8000 mixedBytes).map (·.decoded)))).diagnostics.hasErrors =
        false ∧
      (ofText {} .empty "listing" (Decoded.source "$8000".toList
        ((Disassembly.ofBytes .mos6502 0x8000 mixedBytes).map (·.decoded)))).image.bytes.toList =
        mixedBytes := by
  have hlines : ∀ line ∈ Disassembly.ofBytes .mos6502 0x8000 mixedBytes,
      line.InMemory ∧ line.decoded.isOverlong .mos6502 = false := by decide +kernel
  refine ⟨by decide +kernel, hlines, ?_⟩
  have horigin : (0x8000 : UInt16).toNat = 0x8000 := by decide
  rw [← horigin] at hlines ⊢
  exact reassembles .mos6502 0x8000 mixedBytes .empty "listing" "$8000".toList (by decide)
    (by decide) (fun line hline => (hlines line hline).1) fun line hline => (hlines line hline).2

end Assembly

end Assembler6502
