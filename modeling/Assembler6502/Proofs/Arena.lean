import Assembler6502.Proofs.Bindings
import Assembler6502.Proofs.Tours
import Mathlib.Data.List.Nodup

/-!
# Programs stay trees

Nothing in an arena keeps two sequences from sharing a child, or a sequence from being below itself,
and passes overwrite nodes while they walk. But every arena that assembling comes to holds a tree
whose numbers tell its nodes apart. So at most one path leads from the root to a node, and every
walk comes to an end, and meets every statement below the root once, in the order of the paths that
lead to the statements. Reading makes such an arena, and every pass leaves one. The nodes of faulty
lines stay in the arena, too, but no path leads to them.

## Main definitions

* `Arena.Leads`: paths along the numbers of children
* `Arena.IsTree`: exactly one path leads from the root to each node that can be reached
* `Outline`, `Arena.Outlines`: the nodes with the paths to them, in the order of the paths
* `Arena.WalkedOnce`: walks meet every statement once, in order
* `Assembly.programs`: the programs before and behind the passes of assembling

## Main results

* `Arena.Stores.isTree`, `Arena.IsTree.acyclic`: an arena that holds a program is a tree, and no
  node of a tree is below itself
* `Arena.Stores.walkedOnce`: the walks over an arena that holds a program
* `Assembly.isTree_arenas`: reading makes a tree, and every pass leaves one
-/

namespace Assembler6502

/-! ## Paths -/

namespace Arena

/-- A path leads from one node to another. Its numbers say which child to go to. -/
inductive Leads (a : Arena) : Nat → List Nat → Nat → Prop
  | here (n : Nat) : Leads a n [] n
  | into {n m k i : Nat} {location : Location} {children π : List Nat}
      (hn : a.get? n = some (.sequence location children)) (hm : children[i]? = some m)
      (hk : Leads a m π k) : Leads a n (i :: π) k

/-- An arena is a tree: the node with number zero is a sequence, no sequence names a child that is
not there, and exactly one path leads from the node with number zero to each node that can be
reached from there. -/
structure IsTree (a : Arena) : Prop where
  root : ∃ location children, a.get? 0 = some (.sequence location children)
  closed : a.Closed
  path : ∀ n, (∃ π, a.Leads 0 π n) → ∃! π, a.Leads 0 π n

variable {a : Arena}

theorem Leads.trans {n m k : Nat} {π ρ : List Nat} (h : a.Leads n π m) (h' : a.Leads m ρ k) :
    a.Leads n (π ++ ρ) k := by
  induction h with
  | here => exact h'
  | into hn hm _ ih => exact .into hn hm (ih h')

/-- **No node of a tree is below itself.** -/
theorem IsTree.acyclic (h : a.IsTree) {n : Nat} {π ρ : List Nat} (hn : a.Leads 0 π n)
    (hcycle : a.Leads n ρ n) : ρ = [] := by
  have honce := (h.path n ⟨π, hn⟩).unique (hn.trans hcycle) hn
  exact List.append_right_eq_self.mp honce

end Arena

/-! ## Outlines -/

/-- Nodes, each with a path to it and its number. -/
abbrev Outline := List (List Nat × Nat × Cell)

/-- The statements of an outline, with their numbers. -/
def Outline.statements (outline : Outline) : List (Nat × Statement) :=
  outline.filterMap fun x => x.2.2.statement?.map (x.2.1, ·)

namespace Node

/-- A node without the nodes below it. -/
def cell : Node → Cell
  | leaf _ st => .statement st
  | sequence _ location children => .sequence location (children.map number)

mutual

/-- A node and the nodes below it, each with the path to it and its number. A sequence comes before
its parts. -/
def outline : Node → Outline
  | leaf id st => [([], id, .statement st)]
  | sequence id location children =>
    ([], id, .sequence location (children.map number)) :: outlineAll 0 children

/-- The outline of children, the first of which has index `i`. -/
def outlineAll (i : Nat) : List Node → Outline
  | [] => []
  | node :: rest => (outline node).map (fun x => (i :: x.1, x.2)) ++ outlineAll (i + 1) rest

end

variable {n : Node} {c : Nat × Cell} {i : Nat} {π : List Nat}

theorem mem_outlineAll {ns : List Node} {x : List Nat × Nat × Cell} :
    x ∈ outlineAll i ns ↔
      ∃ j n π c, ns[j]? = some n ∧ (π, c) ∈ n.outline ∧ x = ((i + j) :: π, c) := by
  induction ns generalizing i with
  | nil => simp [outlineAll]
  | cons n rest ih =>
    rw [outlineAll, List.mem_append, ih, List.mem_map]
    constructor
    · rintro (⟨⟨π, c⟩, hmem, rfl⟩ | ⟨j, m, π, c, hj, hmem, rfl⟩)
      · exact ⟨0, n, π, c, rfl, hmem, rfl⟩
      · exact ⟨j + 1, m, π, c, by simpa using hj, hmem, by rw [Nat.add_right_comm, Nat.add_assoc]⟩
    · rintro ⟨j, m, π, c, hj, hmem, rfl⟩
      cases j with
      | zero =>
        obtain rfl : n = m := by simpa using hj
        exact .inl ⟨(π, c), hmem, rfl⟩
      | succ j =>
        refine .inr ⟨j, m, π, c, by simpa using hj, hmem, ?_⟩
        rw [Nat.add_right_comm, Nat.add_assoc]

theorem mem_outline_nil : ([], c) ∈ n.outline ↔ c = (n.number, n.cell) := by
  cases n with
  | leaf id st => simp [outline, number, cell]
  | sequence id location children => simp [outline, number, cell, mem_outlineAll]

/-- A path that leads further leads into a child. -/
theorem mem_outline_cons : (i :: π, c) ∈ n.outline ↔
    ∃ id location children child, n = sequence id location children ∧
      children[i]? = some child ∧ (π, c) ∈ child.outline := by
  cases n with
  | leaf id st => simp [outline]
  | sequence id location children =>
    rw [outline, List.mem_cons, mem_outlineAll]
    constructor
    · rintro (h | ⟨j, child, π', c', hj, hmem, h⟩)
      · cases h
      · obtain ⟨⟨rfl, rfl⟩, rfl⟩ : (i = 0 + j ∧ π = π') ∧ c = c' := by simpa using h
        exact ⟨id, location, children, child, rfl, by simpa using hj, hmem⟩
    · rintro ⟨_, _, _, child, h, hi, hmem⟩
      cases h
      exact .inr ⟨i, child, π, c, hi, hmem, by simp⟩

/-- An outline says what stands at each position. -/
theorem mem_outline_iff_at? :
    (π, c) ∈ n.outline ↔ ∃ m, n.at? π = some m ∧ c = (m.number, m.cell) := by
  induction π generalizing n with
  | nil => simp [mem_outline_nil, at?]
  | cons i π ih =>
    rw [mem_outline_cons]
    constructor
    · rintro ⟨id, location, children, child, rfl, hi, hmem⟩
      obtain ⟨m, hm, hc⟩ := ih.mp hmem
      exact ⟨m, by simp only [at?, hi, Option.bind_some, hm], hc⟩
    · rintro ⟨m, hm, hc⟩
      obtain ⟨id, location, children, child, rfl, hi, hm⟩ := at?_cons hm
      exact ⟨id, location, children, child, rfl, hi, ih.mpr ⟨m, hm, hc⟩⟩

mutual

theorem perm_numbers : ∀ n : Node, (n.outline.map (·.2.1)).Perm n.numbers
  | leaf id st => .refl _
  | sequence id location children => by
    rw [outline, numbers, List.map_cons]
    exact ((perm_numbersAll 0 children).cons id).trans (List.perm_append_singleton id _).symm

theorem perm_numbersAll (i : Nat) : ∀ ns : List Node,
    ((outlineAll i ns).map (·.2.1)).Perm (numbersAll ns)
  | [] => .refl _
  | n :: rest => by
    rw [outlineAll, numbersAll, List.map_append, List.map_map]
    exact (perm_numbers n).append (perm_numbersAll (i + 1) rest)

end

mutual

/-- The paths of an outline stand in order. -/
theorem pairwise_outline : ∀ n : Node, (n.outline.map (·.1)).Pairwise (· < ·)
  | leaf id st => by
    rw [outline]
    exact List.pairwise_singleton _ _
  | sequence id location children => by
    rw [outline, List.map_cons, List.pairwise_cons]
    refine ⟨fun π hπ => ?_, pairwise_outlineAll 0 children⟩
    obtain ⟨x, hx, rfl⟩ := List.mem_map.mp hπ
    obtain ⟨j, n, π, c, -, -, rfl⟩ := mem_outlineAll.mp hx
    exact List.nil_lt_cons _ _

theorem pairwise_outlineAll (i : Nat) : ∀ ns : List Node,
    ((outlineAll i ns).map (·.1)).Pairwise (· < ·)
  | [] => .nil
  | n :: rest => by
    rw [outlineAll, List.map_append, List.pairwise_append]
    refine ⟨?_, pairwise_outlineAll (i + 1) rest, fun π hπ π' hπ' => ?_⟩
    · rw [List.map_map, List.pairwise_map]
      refine (List.pairwise_map.mp (pairwise_outline n)).imp fun h => ?_
      exact List.cons_lt_cons_iff.mpr (.inr ⟨rfl, h⟩)
    · -- The paths into the first child begin with a smaller number than those into later ones.
      obtain ⟨x, hx, rfl⟩ := List.mem_map.mp hπ
      obtain ⟨y, -, rfl⟩ := List.mem_map.mp hx
      obtain ⟨z, hz, rfl⟩ := List.mem_map.mp hπ'
      obtain ⟨j, m, ρ, c, -, -, rfl⟩ := mem_outlineAll.mp hz
      exact List.cons_lt_cons_iff.mpr (.inl (by omega))

end

mutual

theorem leaves_eq_outline : ∀ n : Node,
    n.leaves = Outline.statements n.outline
  | leaf id st => rfl
  | sequence id location children => by
    rw [leaves, outline, Outline.statements, List.filterMap_cons_none rfl]
    exact leavesAll_eq_outlineAll 0 children

theorem leavesAll_eq_outlineAll (i : Nat) : ∀ ns : List Node,
    leavesAll ns = Outline.statements (outlineAll i ns)
  | [] => rfl
  | n :: rest => by
    rw [leavesAll, outlineAll, Outline.statements, List.filterMap_append, List.filterMap_map,
      leaves_eq_outline n, leavesAll_eq_outlineAll (i + 1) rest]
    rfl

end

end Node

namespace Arena

/-- The nodes that paths lead to from the root, each with its path, in the order of the paths: a
sequence comes before its parts, and the parts come in their order. -/
structure Outlines (a : Arena) (outline : Outline) : Prop where
  mem : ∀ π n cell, (π, n, cell) ∈ outline ↔ a.Leads 0 π n ∧ a.get? n = some cell
  ordered : (outline.map (·.1)).Pairwise (· < ·)

variable {a : Arena} {n : Node} {π : List Nat} {m : Nat} {cell : Cell}

theorem HoldsAll.holds {ns : List Node} (h : a.HoldsAll ns) : ∀ n ∈ ns, a.Holds n := by
  induction ns with
  | nil => simp
  | cons n rest ih =>
    rw [HoldsAll] at h
    exact List.forall_mem_cons.mpr ⟨h.1, ih h.2⟩

theorem Holds.get? (h : a.Holds n) : a.get? n.number = some n.cell := by
  cases n with
  | leaf id st => rwa [Holds] at h
  | sequence id location children =>
    rw [Holds] at h
    exact h.1

theorem Closed.get?_of_leads (h : a.Closed) {n : Nat} (hn : a.get? n = some cell)
    (hleads : a.Leads n π m) : ∃ cell', a.get? m = some cell' := by
  induction hleads generalizing cell with
  | here n => exact ⟨cell, hn⟩
  | into hn' hm _ ih =>
    have hlt := h _ _ hn' _ (List.mem_of_getElem? hm)
    exact ih (Array.getElem?_eq_getElem hlt)

/-- **The paths in an arena** lead to the nodes of the tree that it holds. -/
theorem Holds.mem_outline_iff (h : a.Holds n) :
    (π, m, cell) ∈ n.outline ↔ a.Leads n.number π m ∧ a.get? m = some cell := by
  induction π generalizing n with
  | nil =>
    rw [Node.mem_outline_nil]
    constructor
    · intro heq
      cases heq
      exact ⟨.here _, h.get?⟩
    · rintro ⟨hleads, hcell⟩
      cases hleads
      rw [Option.some.inj (h.get?.symm.trans hcell)]
  | cons i π ih =>
    rw [Node.mem_outline_cons]
    constructor
    · rintro ⟨id, location, children, child, rfl, hi, hmem⟩
      rw [Holds] at h
      obtain ⟨hleads, hcell⟩ := (ih (h.2.holds child (List.mem_of_getElem? hi))).mp hmem
      exact ⟨.into h.1 (by simp [hi]) hleads, hcell⟩
    · rintro ⟨hleads, hcell⟩
      cases hleads with
      | into hn hi hk =>
        -- The step goes into a child of this very node, which lies under its number.
        have hself := Option.some.inj (h.get?.symm.trans hn)
        cases n with
        | leaf id st => cases hself
        | sequence id location children =>
          obtain ⟨-, rfl⟩ := Cell.sequence.inj hself
          rw [List.getElem?_map, Option.map_eq_some_iff] at hi
          obtain ⟨child, hi, rfl⟩ := hi
          rw [Holds] at h
          exact ⟨id, location, children, child, rfl, hi,
            (ih (h.2.holds child (List.mem_of_getElem? hi))).mpr ⟨hk, hcell⟩⟩

mutual

/-- **The nodes that are met** from a number on are those of the outline. -/
theorem Holds.nodesFrom : ∀ (n : Node) (fuel depth : Nat), n.numbers.length ≤ fuel → a.Holds n →
    a.nodesFrom fuel depth n.number =
      some (n.outline.map fun x => (depth + x.1.length, x.2))
  | .leaf id st, fuel, depth, hfuel, hn => by
    obtain ⟨fuel, rfl⟩ := Nat.exists_eq_succ_of_ne_zero (Nat.one_le_iff_ne_zero.mp hfuel)
    rw [Holds] at hn
    simp [Arena.nodesFrom, Node.number, hn, Cell.children, Node.outline]
  | .sequence id location children, fuel, depth, hfuel, hn => by
    rw [Node.numbers, List.length_append, List.length_singleton] at hfuel
    obtain ⟨fuel, rfl⟩ := Nat.exists_eq_succ_of_ne_zero (Nat.ne_zero_of_lt hfuel)
    rw [Holds] at hn
    obtain ⟨below, hbelow, hflat⟩ :=
      HoldsAll.nodesFrom children 0 fuel depth (Nat.le_of_succ_le_succ hfuel) hn.2
    simp [Arena.nodesFrom, Node.number, hn.1, Cell.children, hbelow, hflat, Node.outline]

theorem HoldsAll.nodesFrom : ∀ (ns : List Node) (i fuel depth : Nat),
    (Node.numbersAll ns).length ≤ fuel → a.HoldsAll ns →
      ∃ below, (ns.map Node.number).mapM (a.nodesFrom fuel (depth + 1)) = some below ∧
        below.flatten = (Node.outlineAll i ns).map fun x => (depth + x.1.length, x.2)
  | [], i, fuel, depth, _, _ => ⟨[], rfl, rfl⟩
  | n :: rest, i, fuel, depth, hfuel, hn => by
    rw [Node.numbersAll, List.length_append] at hfuel
    rw [HoldsAll] at hn
    have hfirst := Holds.nodesFrom n fuel (depth + 1)
      (Nat.le_trans (Nat.le_add_right _ _) hfuel) hn.1
    obtain ⟨below, hbelow, hflat⟩ := HoldsAll.nodesFrom rest (i + 1) fuel depth
      (Nat.le_trans (Nat.le_add_left _ _) hfuel) hn.2
    refine ⟨_, by rw [List.map_cons, List.mapM_cons, hfirst, hbelow]; rfl, ?_⟩
    rw [List.flatten_cons, hflat, Node.outlineAll, List.map_append, List.map_map]
    refine congrArg (· ++ _) (List.map_congr_left fun x _ => ?_)
    simp only [Function.comp_apply, List.length_cons, Nat.add_right_comm, Nat.add_assoc]

end

/-! ## Arenas that hold programs -/

/-- Walks come to an end and meet every statement of an outline once, in order: the listings of an
arena are those of the outline, every pass that puts statements or new parts in the place of
statements visits the statements of the outline one after the other, as they lie there before the
pass, and so does the extension of branches, although it comes back to what it has overwritten. -/
structure WalkedOnce (a : Arena) (outline : Outline) : Prop where
  once : (outline.map (·.2.1)).Nodup
  nodes : a.nodes = some (outline.map fun x => (x.1.length, x.2))
  leaves : a.leaves = some outline.statements
  dump : a.dump = some (String.join (outline.map fun x => x.2.2.line x.1.length))
  walk : ∀ (μ : Type) (visit : Visit μ), visit.Fills → ∀ t : Tour μ, t.arena = a →
    ∃ b, t.walk (.ofVisit visit) a.size 0 =
      some (.ofSweep (outline.statements.foldl visit.step t.sweep) b)
  branches : ∀ t : Tour Unit, t.arena = a →
    ∃ b, t.walk Pass.rewriteBranches a.size 0 =
      some (.ofSweep (outline.statements.foldl (Visit.step Pass.extendBranches) t.sweep) b)

namespace Stores

variable {p : Program}

theorem nodup_outline (h : a.Stores p) : (p.root.outline.map (·.2.1)).Nodup :=
  p.root.perm_numbers.nodup_iff.mpr h.numbered.nodup

theorem outlines (h : a.Stores p) : a.Outlines p.root.outline :=
  ⟨fun _ _ _ => h.holds.mem_outline_iff, p.root.pairwise_outline⟩

/-- **An arena that holds a program is a tree.** -/
theorem isTree (h : a.Stores p) : a.IsTree := by
  refine ⟨⟨_, _, h.holds.get?⟩, h.closed, fun n ⟨π, hπ⟩ => ⟨π, hπ, fun π' hπ' => ?_⟩⟩
  obtain ⟨cell, hcell⟩ := h.closed.get?_of_leads h.holds.get? hπ
  -- Both paths stand in the outline with the same number, and that number is there once.
  have hmem := h.holds.mem_outline_iff.mpr ⟨hπ, hcell⟩
  have hmem' := h.holds.mem_outline_iff.mpr ⟨hπ', hcell⟩
  exact congrArg Prod.fst (List.inj_on_of_nodup_map h.nodup_outline hmem' hmem rfl)

/-- A walk with an action that does what a visit does visits the statements of the outline. -/
theorem walk {μ : Type} {action : Action μ} {visit : Visit μ} (h : a.Stores p)
    (haction : action.Does (fun _ => True) visit) (hv : visit.Numbers) (t : Tour μ)
    (ht : t.arena = a) :
    ∃ b, t.walk action a.size 0 =
      some (.ofSweep (p.root.outline.statements.foldl visit.step t.sweep) b) := by
  obtain ⟨b, hb, -⟩ := haction.walk hv p.root a.size t h.length_le h.numbered.nodup
    (ht ▸ h.holds) fun _ _ => trivial
  rw [Node.fst_traverse, Node.leaves_eq_outline] at hb
  exact ⟨b, hb⟩

/-- **Walks over an arena that holds a program** come to an end and meet every statement once, in
order. -/
theorem walkedOnce (h : a.Stores p) : a.WalkedOnce p.root.outline := by
  have hnodes : a.nodes = some (p.root.outline.map fun x => (x.1.length, x.2)) := by
    have hfrom := Holds.nodesFrom p.root a.size 0 h.length_le h.holds
    simp only [Nat.zero_add] at hfrom
    exact hfrom
  refine ⟨h.nodup_outline, hnodes, ?_, ?_, fun μ visit hv => h.walk hv.does hv.numbers,
    h.walk Pass.does_rewriteBranches Pass.numbers_extendBranches⟩
  · simp only [Arena.leaves, hnodes, Option.map_some, List.filterMap_map, Outline.statements]
    rfl
  · simp only [Arena.dump, hnodes, Option.map_some, List.map_map]
    rfl

end Stores
end Arena

/-! ## Assembling -/

namespace Assembly

variable {π : Type} [Sweepable π]

/-- The program that is assembled, and what the passes make of it one after the other. -/
def programs (options : Options) (program : π) (diagnostics : Diagnostics) : List π :=
  program :: (entries options program diagnostics 0).map (·.after.program)

/-- The last pass writes the image. -/
theorem emit_mem_entries (options : Options) (program : π) (diagnostics : Diagnostics) :
    ⟨.emit, finished options program diagnostics, (finished options program diagnostics).emit.1⟩ ∈
      entries options program diagnostics 0 := by
  have hlast : ((finished options program diagnostics).runPass .emit {}).1 =
      (finished options program diagnostics).emit.1 := by
    simp only [Workspace.runPass, Workspace.emit]
    split <;> rfl
  rw [entries, List.drop_zero, Stage.complete, Stage.historyAll_append]
  refine List.mem_append_right _ ?_
  simp only [Stage.historyAll, Stage.history, List.append_nil]
  exact List.mem_singleton.mpr (congrArg (Stage.Entry.mk _ _) hlast.symm)

theorem emitted_mem_programs (options : Options) (program : π) (diagnostics : Diagnostics) :
    (finished options program diagnostics).emit.1.program ∈
      programs options program diagnostics := by
  have hentry := emit_mem_entries options program diagnostics
  exact List.mem_cons_of_mem _ (List.mem_map.mpr ⟨_, hentry, rfl⟩)

/-- Every pass leaves an arena that holds a program. -/
theorem exists_stores_of_mem_programs {options : Options} {a : Arena} {p : Program}
    {diagnostics : Diagnostics} (h : a.Stores p) {b : Arena}
    (hb : b ∈ programs options a diagnostics) : ∃ q, b.Stores q := by
  rcases List.mem_cons.mp hb with rfl | hb
  · exact ⟨p, h⟩
  · obtain ⟨entry, hentry, rfl⟩ := List.mem_map.mp hb
    exact (Stage.kept_runAll (I := fun w : Workspace Arena => ∃ q, w.program.Stores q)
      (fun _ _ hw => hw) ((Stage.complete options.branchExtend).drop 0)
      (fun kind _ w d ⟨q, hq⟩ =>
        have hv : w.Stores ⟨q, w.context⟩ := ⟨hq, rfl⟩
        ⟨_, (hv.runPass kind d).1.program⟩) _ [] ⟨p, h⟩).2 entry hentry

/-- **Programs stay trees.** Whatever the sources are, and whether they are placed at an address or
not, the arena that reading leaves is a tree, every pass leaves a tree, and every walk over one of
these trees comes to an end and meets every statement below the root once, in order. -/
theorem isTree_arenas (options : Options) (fs : FileSystem)
    (stdin : Except FileError (List UInt8)) (inputs : List Source.Input) (address : Option Nat) :
    ∀ a ∈ programs options
        (address.elim id placeArenaAt (Source.read options.cpu fs stdin inputs).arena)
        (Source.read options.cpu fs stdin inputs).diagnostics,
      a.IsTree ∧ ∃ outline, a.Outlines outline ∧ a.WalkedOnce outline := by
  intro a ha
  have hread := Source.stores_read options.cpu fs stdin inputs
  have hplaced : ∃ p, Arena.Stores (address.elim id placeArenaAt
      (Source.read options.cpu fs stdin inputs).arena) p := by
    cases address with
    | none => exact ⟨_, hread⟩
    | some start => exact ⟨_, hread.placeAt start⟩
  obtain ⟨p, hp⟩ := hplaced
  obtain ⟨q, hq⟩ := exists_stores_of_mem_programs hp ha
  exact ⟨hq.isTree, _, hq.outlines, hq.walkedOnce⟩

/-- A macro with a branch that reaches too far. -/
def farMacro : List UInt8 :=
  ".macro m\n lda _1\n beq 1000\n.macend\n".toUTF8.data.toList

/-- A call of a macro that standard input defines. -/
def includedMacro : List Char :=
  ".include \"-\"\n`m here\nhere: nop\n".toList

theorem isTree_includedMacro :
    let options : Options := {}
    let read := Source.read options.cpu .empty (.ok farMacro) [.text "far" includedMacro ""]
    let a := (finished options read.arena read.diagnostics).emit.1.program
    a.nodes.map (·.map fun x => (x.2.1, x.2.2.children)) =
        some [(0, [9]), (9, [5, 6, 7, 8]), (5, [1, 2, 3, 4]), (1, []), (2, []), (3, []), (4, []),
          (6, [10, 11, 12, 13, 14, 15, 16, 17]), (10, []), (11, []), (12, []), (13, []), (14, []),
          (15, [18, 19]), (18, []), (19, []), (16, []), (17, []), (7, []), (8, [])] ∧
      a.IsTree ∧ ∃ outline, a.Outlines outline ∧ a.WalkedOnce outline := by
  have htrees := isTree_arenas {} .empty (.ok farMacro) [.text "far" includedMacro ""] none
  rw [Option.elim_none, id_eq] at htrees
  exact ⟨by decide +kernel, htrees _ (emitted_mem_programs _ _ _)⟩

end Assembly
end Assembler6502
