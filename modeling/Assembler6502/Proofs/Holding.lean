import Assembler6502.Arena

/-!
# Arenas that hold trees

An arena holds a tree if the nodes of the tree lie under their numbers. Parts of a program are
numbered in order, in which they are also added to an arena, so an arena holds what has been added.
It still holds a tree when nodes have been added, and when others have been overwritten.

## Main definitions

* `Ascending`: numbers that are given out in order
* `Node.numbers`: the numbers of a node and of the nodes below it
* `Arena.Holds`: the nodes of a tree lie under their numbers
* `Arena.Closed`: no sequence names a child that is not there
* `Arena.Frames`: what stays when an arena is changed

## Main results

* `Node.ascending_ofFragments`: parts of a program are numbered in order
* `Arena.Frames.holds`: a tree is still held if none of its nodes was overwritten
* `Arena.gains_ofFragments`: an arena holds the parts that were added
-/

namespace Assembler6502

/-! ## Numbers -/

/-- Numbers from one bound up to another one, given out in order. -/
structure Ascending (low high : Nat) (numbers : List Nat) : Prop where
  le : low ≤ high
  increasing : numbers.Pairwise (· < ·)
  bounds : ∀ n ∈ numbers, low ≤ n ∧ n < high

namespace Ascending

variable {low middle high : Nat} {first second : List Nat}

theorem nil (h : low ≤ high) : Ascending low high [] :=
  ⟨h, .nil, by simp⟩

theorem singleton (low : Nat) : Ascending low (low + 1) [low] :=
  ⟨Nat.le_succ low, List.pairwise_singleton _ _, by simp⟩

theorem append (h : Ascending low middle first) (h' : Ascending middle high second) :
    Ascending low high (first ++ second) := by
  refine ⟨Nat.le_trans h.le h'.le, List.pairwise_append.mpr ⟨h.increasing, h'.increasing, ?_⟩, ?_⟩
  · intro m hm n hn
    exact Nat.lt_of_lt_of_le (h.bounds m hm).2 (h'.bounds n hn).1
  · intro n hn
    rcases List.mem_append.mp hn with hn | hn
    · exact ⟨(h.bounds n hn).1, Nat.lt_of_lt_of_le (h.bounds n hn).2 h'.le⟩
    · exact ⟨Nat.le_trans h.le (h'.bounds n hn).1, (h'.bounds n hn).2⟩

theorem nodup (h : Ascending low high first) : first.Nodup :=
  h.increasing.imp Nat.ne_of_lt

end Ascending

namespace Node

mutual

/-- The numbers of a node and of the nodes below it. A sequence comes behind its parts, as it is
numbered behind them. -/
def numbers : Node → List Nat
  | leaf id _ => [id]
  | sequence id _ children => numbersAll children ++ [id]

/-- The numbers of some nodes and of the nodes below them. -/
def numbersAll : List Node → List Nat
  | [] => []
  | node :: rest => numbers node ++ numbersAll rest

end

theorem numbersAll_append (ns ms : List Node) :
    numbersAll (ns ++ ms) = numbersAll ns ++ numbersAll ms := by
  induction ns with
  | nil => rfl
  | cons n rest ih => simp [numbersAll, ih]

theorem number_mem_numbers (n : Node) : n.number ∈ n.numbers := by
  cases n <;> simp [number, numbers]

theorem number_mem_numbersAll {ns : List Node} : ∀ m ∈ ns.map number, m ∈ numbersAll ns := by
  induction ns with
  | nil => simp
  | cons n rest ih =>
    rw [List.map_cons, numbersAll, List.forall_mem_cons]
    exact ⟨List.mem_append_left _ n.number_mem_numbers, fun m hm =>
      List.mem_append_right _ (ih m hm)⟩

mutual

theorem sublist_numbers : ∀ n : Node, (n.leaves.map (·.1)).Sublist n.numbers
  | leaf id st => by simp [leaves, numbers]
  | sequence id location children => by
    rw [leaves, numbers]
    exact (sublist_numbersAll children).trans (List.sublist_append_left _ _)

theorem sublist_numbersAll : ∀ ns : List Node,
    ((leavesAll ns).map (·.1)).Sublist (numbersAll ns)
  | [] => by simp [leavesAll]
  | n :: rest => by
    rw [leavesAll, numbersAll, List.map_append]
    exact (sublist_numbers n).append (sublist_numbersAll rest)

end

mutual

theorem ascending_ofFragment : ∀ (size : Nat) (part : Fragment),
    Ascending size (ofFragment size part).2 (ofFragment size part).1.numbers
  | size, .statement st => by
    simp only [ofFragment, numbers]
    exact .singleton size
  | size, .sequence location parts => by
    simp only [ofFragment, numbers]
    exact (ascending_ofFragments size parts).append (.singleton _)

/-- **Parts of a program are numbered in order.** -/
theorem ascending_ofFragments : ∀ (size : Nat) (parts : List Fragment),
    Ascending size (ofFragments size parts).2 (numbersAll (ofFragments size parts).1)
  | size, [] => .nil (Nat.le_refl size)
  | size, part :: rest => by
    simp only [ofFragments, numbersAll]
    exact (ascending_ofFragment size part).append
      (ascending_ofFragments (ofFragment size part).2 rest)

end

end Node

/-! ## Trees in an arena -/

namespace Arena

variable {a b c : Arena} {cell : Cell} {id : Nat} {ids ids' : List Nat} {n : Node}
  {ns ms : List Node}

theorem get?_push : (a.push cell).get? id = if id = a.size then some cell else a.get? id :=
  Array.getElem?_push

theorem get?_set : (a.set id cell).get? id = if id < a.size then some cell else none :=
  Array.getElem?_setIfInBounds_self

theorem get?_set_ne {other : Nat} (h : other ≠ id) : (a.set id cell).get? other = a.get? other :=
  Array.getElem?_setIfInBounds_ne h.symm

@[simp] theorem size_push : (a.push cell).size = a.size + 1 :=
  Array.size_push _

@[simp] theorem size_set : (a.set id cell).size = a.size :=
  Array.size_setIfInBounds

theorem lt_of_get? (h : a.get? id = some cell) : id < a.size :=
  (Array.getElem?_eq_some_iff.mp h).1

mutual

/-- The nodes of a tree lie under their numbers. -/
def Holds (a : Arena) : Node → Prop
  | .leaf id st => a.get? id = some (.statement st)
  | .sequence id location children =>
    a.get? id = some (.sequence location (children.map Node.number)) ∧ HoldsAll a children

/-- The nodes of some trees lie under their numbers. -/
def HoldsAll (a : Arena) : List Node → Prop
  | [] => True
  | node :: rest => Holds a node ∧ HoldsAll a rest

end

theorem holdsAll_append : a.HoldsAll (ns ++ ms) ↔ a.HoldsAll ns ∧ a.HoldsAll ms := by
  induction ns with
  | nil => simp [HoldsAll]
  | cons n rest ih => simp only [List.cons_append, HoldsAll, ih, and_assoc]

mutual

/-- The numbers of what an arena holds are given out. -/
theorem Holds.lt : ∀ {n : Node}, a.Holds n → ∀ m ∈ n.numbers, m < a.size
  | .leaf id st, h, m, hm => by
    rw [Holds] at h
    rw [Node.numbers, List.mem_singleton] at hm
    exact hm ▸ lt_of_get? h
  | .sequence id location children, h, m, hm => by
    rw [Holds] at h
    rw [Node.numbers, List.mem_append, List.mem_singleton] at hm
    rcases hm with hm | rfl
    · exact h.2.lt m hm
    · exact lt_of_get? h.1

theorem HoldsAll.lt : ∀ {ns : List Node}, a.HoldsAll ns → ∀ m ∈ Node.numbersAll ns, m < a.size
  | [], _, m, hm => by cases hm
  | n :: rest, h, m, hm => by
    rw [HoldsAll] at h
    rw [Node.numbersAll, List.mem_append] at hm
    rcases hm with hm | hm
    · exact h.1.lt m hm
    · exact h.2.lt m hm

end

/-- No sequence names a child that is not there. -/
def Closed (a : Arena) : Prop :=
  ∀ n cell, a.get? n = some cell → ∀ m ∈ cell.children, m < a.size

/-- What stays when an arena is changed: nodes may be added, and those with some numbers may be
overwritten, but every child is still there if it was. -/
structure Frames (a b : Arena) (ids : List Nat) : Prop where
  le : a.size ≤ b.size
  kept : ∀ n < a.size, n ∉ ids → b.get? n = a.get? n
  closed : a.Closed → b.Closed

namespace Frames

theorem refl (a : Arena) : Frames a a [] :=
  ⟨Nat.le_refl _, fun _ _ _ => rfl, fun h => h⟩

theorem trans (h : Frames a b ids) (h' : Frames b c ids') : Frames a c (ids ++ ids') := by
  refine ⟨Nat.le_trans h.le h'.le, fun n hn hids => ?_, fun ha => h'.closed (h.closed ha)⟩
  rw [List.mem_append, not_or] at hids
  rw [h'.kept n (Nat.lt_of_lt_of_le hn h.le) hids.2, h.kept n hn hids.1]

theorem mono (h : Frames a b ids) (hids : ∀ n ∈ ids, n < a.size → n ∈ ids') : Frames a b ids' :=
  ⟨h.le, fun n hn hn' => h.kept n hn fun hmem => hn' (hids n hmem hn), h.closed⟩

theorem push (h : ∀ m ∈ cell.children, m ≤ a.size) : Frames a (a.push cell) [] := by
  refine ⟨by simp, fun n hn _ => by rw [get?_push, if_neg (Nat.ne_of_lt hn)], ?_⟩
  intro ha n cell' hcell m hm
  rw [size_push]
  rw [get?_push] at hcell
  split at hcell
  · obtain rfl := Option.some.inj hcell
    exact Nat.lt_succ_of_le (h m hm)
  · exact Nat.lt_succ_of_lt (ha n cell' hcell m hm)

theorem set (id : Nat) (h : ∀ m ∈ cell.children, m < a.size) : Frames a (a.set id cell) [id] := by
  refine ⟨by simp, fun n _ hn => get?_set_ne (by simpa using hn), fun ha n cell' hcell m hm => ?_⟩
  rw [size_set]
  by_cases hn : n = id
  · rw [hn, get?_set] at hcell
    split at hcell
    · obtain rfl := Option.some.inj hcell
      exact h m hm
    · cases hcell
  · rw [get?_set_ne hn] at hcell
    exact ha n cell' hcell m hm

mutual

/-- **A tree is still held** if none of its nodes was overwritten. -/
theorem holds (h : Frames a b ids) : ∀ n : Node, a.Holds n → (∀ m ∈ n.numbers, m ∉ ids) → b.Holds n
  | .leaf id st, hn, hids => by
    rw [Holds] at hn ⊢
    rwa [h.kept id (lt_of_get? hn) (hids id List.mem_cons_self)]
  | .sequence id location children, hn, hids => by
    rw [Holds] at hn ⊢
    rw [Node.numbers] at hids
    refine ⟨?_, h.holdsAll children hn.2 fun m hm => hids m (List.mem_append_left _ hm)⟩
    rw [h.kept id (lt_of_get? hn.1) (hids id (by simp))]
    exact hn.1

theorem holdsAll (h : Frames a b ids) : ∀ ns : List Node, a.HoldsAll ns →
    (∀ m ∈ Node.numbersAll ns, m ∉ ids) → b.HoldsAll ns
  | [], _, _ => trivial
  | n :: rest, hns, hids => by
    rw [HoldsAll] at hns ⊢
    rw [Node.numbersAll] at hids
    exact ⟨h.holds n hns.1 fun m hm => hids m (List.mem_append_left _ hm),
      h.holdsAll rest hns.2 fun m hm => hids m (List.mem_append_right _ hm)⟩

end

end Frames

/-! ## Nodes that are added -/

/-- Nodes are added and held, and nothing is overwritten. -/
structure Gains (a b : Arena) (ns : List Node) : Prop where
  frames : Frames a b []
  holds : b.HoldsAll ns

namespace Gains

theorem nil (a : Arena) : Gains a a [] :=
  ⟨.refl a, trivial⟩

theorem append (h : Gains a b ns) (h' : Gains b c ms) : Gains a c (ns ++ ms) :=
  ⟨h.frames.trans h'.frames,
    holdsAll_append.mpr ⟨h'.frames.holdsAll ns h.holds (by simp), h'.holds⟩⟩

theorem drop (h : Gains a b ns) : Gains a b [] :=
  ⟨h.frames, trivial⟩

theorem statement (a : Arena) (st : Statement) :
    Gains a (a.push (.statement st)) [.leaf a.size st] := by
  refine ⟨.push (by simp [Cell.children]), ?_⟩
  simp [HoldsAll, Holds, get?_push]

theorem sequence (h : Gains a b ns) (location : Location) :
    Gains a (b.push (.sequence location (ns.map Node.number)))
      [.sequence b.size location ns] := by
  have hframes : Frames b (b.push (.sequence location (ns.map Node.number))) [] :=
    .push fun m hm => Nat.le_of_lt (h.holds.lt m (Node.number_mem_numbersAll m hm))
  refine ⟨h.frames.trans hframes, ?_⟩
  simp only [HoldsAll, Holds, get?_push, if_true, and_true]
  exact ⟨trivial, hframes.holdsAll ns h.holds (by simp)⟩

end Gains

mutual

theorem gains_ofFragment : ∀ (a : Arena) (part : Fragment),
    Gains a (a.enter (Node.ofFragment a.size part).1) [(Node.ofFragment a.size part).1] ∧
      (a.enter (Node.ofFragment a.size part).1).size = (Node.ofFragment a.size part).2
  | a, .statement st => by
    simp only [Node.ofFragment, enter]
    exact ⟨.statement a st, size_push⟩
  | a, .sequence location parts => by
    obtain ⟨hgains, hsize⟩ := gains_ofFragments a parts
    simp only [Node.ofFragment, enter, ← hsize]
    exact ⟨hgains.sequence location, size_push⟩

/-- **Parts of a program that are added** are held under the numbers that they are given. -/
theorem gains_ofFragments : ∀ (a : Arena) (parts : List Fragment),
    Gains a (a.enterAll (Node.ofFragments a.size parts).1) (Node.ofFragments a.size parts).1 ∧
      (a.enterAll (Node.ofFragments a.size parts).1).size = (Node.ofFragments a.size parts).2
  | a, [] => ⟨.nil a, rfl⟩
  | a, part :: rest => by
    obtain ⟨hfirst, hsize⟩ := gains_ofFragment a part
    have hrest := gains_ofFragments (a.enter (Node.ofFragment a.size part).1) rest
    simp only [Node.ofFragments, enterAll, ← hsize]
    exact ⟨hfirst.append hrest.1, hrest.2⟩

end

end Arena
end Assembler6502
