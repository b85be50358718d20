import PagedMap.Proofs.Page.NodeLists
import PagedMap.Proofs.Page.SplitPoints

/-!
# Nodes without room

A node that gets a further key is split in two nodes with a key between them. Whichever of the three
lies where, the keys and the children come in the order in which the node would have had them, and
none is lost. Split at the middle of their bytes, or of their number if there is room for all of
them, both sides have room for what they get.
-/

namespace PagedMap.Node

variable {node : Node} {keys front back : List Bytes} {children : List PageIndex} {key : Bytes}
  {lacksBytes : Bool} {below : Nat}

/-- Short keys fill a node only if there are many of them. -/
theorem load_le_of_few (few : keys.length ≤ 2) (small : ∀ key ∈ keys, key.length ≤ maxKeySize) :
    load keys ≤ nodeCapacity := by
  have weight : weigh routeSize keys ≤ keys.length * (maxKeySize + childSize) :=
    weigh_le_of_bounded routeSize keys fun key member =>
      Nat.add_le_add_right (small key member) childSize
  have table := tableSize_mono few
  have smallTable : tableSize 2 ≤ 64 := by decide
  have bounded : keys.length * (maxKeySize + childSize) ≤ 2 * (maxKeySize + childSize) :=
    Nat.mul_le_mul_right _ few
  simp only [load, maxKeySize, childSize, nodeCapacity, pageSize, headerSize] at *
  omega

/-- The split point of a node that gets a further key leaves room on both sides. -/
theorem Holds.exists_splitPoint (holds : node.Holds (front ++ back) children)
    (small : ∀ other ∈ front ++ key :: back, other.length ≤ maxKeySize)
    (full : lacksBytes = decide (nodeCapacity < load (front ++ key :: back)))
    (crowded : lacksBytes = false → 2 ≤ node.count) :
    ∃ midpoint half, node.midpoint = .ok midpoint ∧
      splitPoint node.count lacksBytes midpoint = .ok half ∧ 1 ≤ half ∧ half < node.count ∧
      load ((front ++ key :: back).take half) ≤ nodeCapacity ∧
      load ((front ++ key :: back).drop (half + 1)) ≤ nodeCapacity := by
  have longer : (front ++ key :: back).length = node.count + 1 := by
    rw [holds.count_eq]
    simp only [List.length_append, List.length_cons]
    omega
  have several : 2 ≤ node.count := by
    cases lacksBytes with
    | false => exact crowded rfl
    | true =>
        apply Nat.le_of_not_lt
        intro few
        have fits := load_le_of_few (by omega) small
        have overfull := of_decide_eq_true full.symm
        omega
  rcases holds.midpoint_yields with ⟨midpoint, found, inside, reached, before⟩
  have half_eq := splitPoint_eq several lacksBytes midpoint
  generalize halves : min (max (if lacksBytes then midpoint else node.count / 2) 1)
    (node.count - 1) = half at half_eq
  refine ⟨midpoint, half, found, half_eq, by omega, by omega, ?_⟩
  -- Without a lack of bytes both sides are sublists of what fits.
  cases lacksBytes with
  | false =>
      have light := Nat.le_of_not_lt (of_decide_eq_false full.symm)
      constructor
      · exact Nat.le_trans (load_mono (List.take_sublist _ _)) light
      · exact Nat.le_trans (load_mono (List.drop_sublist _ _)) light
  | true =>
      have smallOld : ∀ other ∈ front ++ back, routeSize other ≤ maxKeySize + childSize :=
        fun other member =>
          Nat.add_le_add_right ((forall_mem_insert.mp small).2 other member) childSize
      rw [if_pos rfl, holds.count_eq] at halves
      rw [holds.count_eq] at several
      have halving := halving_of_midpoint several smallOld inside reached before halves.symm
      exact load_le_of_halving halving holds.fits holds.length_lt (small key (by simp))

/-- What is read from the two nodes that a node was split into, with the key between them. -/
structure SplitReads (keys : List Bytes) (children : List PageIndex) (lower upper : List Bytes)
    (lowerChildren upperChildren : List PageIndex) (sides : NodeSplit) : Prop where
  left : sides.left.Reads lower lowerChildren
  right : sides.right.Reads upper upperChildren
  keys_eq : lower ++ [sides.separator] ++ upper = keys
  children_eq : lowerChildren ++ upperChildren = children
  lowerFilled : lower ≠ []
  upperFilled : upper ≠ []

/-- Neither side of a split outgrows a page or the node that was split. -/
structure SplitFits (node : Node) (sides : NodeSplit) : Prop where
  left_used : sides.left.used ≤ nodeCapacity
  right_used : sides.right.used ≤ nodeCapacity
  left_few : sides.left.count ≤ node.count
  right_few : sides.right.count ≤ node.count

namespace Holds

/-- Wherever a node is split, no key and no child is lost, doubled or put out of order. -/
theorem split_reads (holds : node.Holds keys children) (inside : below ≤ node.count) (key : Bytes)
    (child : PageIndex) {half : Nat} (positive : 1 ≤ half) (within : half < node.count)
    {sides : NodeSplit} (splits : node.split below key child half = .ok sides) :
    ∃ lower upper lowerChildren upperChildren,
      SplitReads (keys.insertIdx below key) (children.insertIdx (below + 1) child) lower upper
        lowerChildren upperChildren sides := by
  have count_eq := holds.count_eq
  rw [count_eq] at inside within
  rcases holds.exists_split inside with ⟨front, back, left, right, rfl, rfl, rfl, aligned⟩
  rcases split_yieldsWhere holds aligned key child within with
    ⟨lower, separator, upper, lowerChildren, upperChildren, keys_eq, children_eq, length_lower,
      length_children, splitsWhere⟩
  have parts := splitsWhere.holds splits
  have lengths := congrArg List.length keys_eq
  simp only [List.length_append, List.length_cons] at lengths within
  refine ⟨lower, upper, lowerChildren, upperChildren, parts.left.reads, parts.right.reads, ?_, ?_,
    List.length_pos_iff.mp (by omega), List.length_pos_iff.mp (by omega)⟩
  · rw [insertIdx_append, keys_eq, parts.separator_eq]
    simp
  · rw [← aligned, insertIdx_append, children_eq]

/-- With the split point that is chosen, both halves of a node have room, since keys are short. -/
theorem split_fits (holds : node.Holds keys children) (several : 2 ≤ node.count)
    (small : ∀ other ∈ keys, other.length ≤ maxKeySize) (smallNew : key.length ≤ maxKeySize)
    (inside : below ≤ node.count) (child : PageIndex) :
    ∃ lacksBytes midpoint half, node.overflowsWith key.length = .ok lacksBytes ∧
      node.midpoint = .ok midpoint ∧ splitPoint node.count lacksBytes midpoint = .ok half ∧
      Yields (node.split below key child half) (SplitFits node) := by
  have count_eq := holds.count_eq
  rw [count_eq] at inside
  rcases holds.exists_split inside with ⟨front, back, left, right, rfl, rfl, rfl, aligned⟩
  have tiny : key.length < 0x1000000000000000 := Nat.lt_of_le_of_lt smallNew (by decide)
  rcases holds.exists_splitPoint (forall_mem_insert.mpr ⟨smallNew, small⟩) rfl fun _ => several with
    ⟨midpoint, half, found, halves, positive, within, fitsLeft, fitsRight⟩
  refine ⟨_, midpoint, half, holds.overflowsWith_eq key tiny, found, halves, ?_⟩
  rw [count_eq] at within
  rcases split_yields holds aligned child within fitsLeft fitsRight with
    ⟨lower, separator, upper, lowerChildren, upperChildren, keys_eq, _, length_lower, _, splits⟩
  apply splits.mono
  intro sides parts
  have lengths := congrArg List.length keys_eq
  simp only [List.length_append, List.length_cons] at lengths within count_eq
  refine ⟨?_, ?_, ?_, ?_⟩
  · rw [parts.left.used_eq]
    exact parts.left.fits
  · rw [parts.right.used_eq]
    exact parts.right.fits
  · rw [parts.left.count_eq]
    omega
  · rw [parts.right.count_eq]
    omega

end Holds

/-- A node with several keys that is split between two of them, wherever the new key comes, is read
from its parts as if the key had been inserted. Where the node splits by itself, whether it lacks
bytes or is only to hold no more keys, it does so without a fault. -/
theorem split_separates (holds : node.Holds keys children) (several : 2 ≤ node.count)
    (small : ∀ other ∈ keys, other.length ≤ maxKeySize) (smallNew : key.length ≤ maxKeySize)
    (inside : below ≤ node.count) (child : PageIndex) :
    (∀ half sides, 1 ≤ half → half < node.count → node.split below key child half = .ok sides →
      ∃ lower upper lowerChildren upperChildren,
        SplitReads (keys.insertIdx below key) (children.insertIdx (below + 1) child) lower upper
          lowerChildren upperChildren sides) ∧
    ∃ lacksBytes midpoint half, node.overflowsWith key.length = .ok lacksBytes ∧
      node.midpoint = .ok midpoint ∧ splitPoint node.count lacksBytes midpoint = .ok half ∧
      Yields (node.split below key child half) (SplitFits node) :=
  ⟨fun _ _ positive within splits => holds.split_reads inside key child positive within splits,
    holds.split_fits several small smallNew inside child⟩

/-- A node with a crowded right half, into which the new key goes as its first. -/
theorem split_separates_further :
    ∃ (node : Node) (half : Nat), node.Holds [[1], [3], [5]] [10, 11, 12, 13] ∧
      Yields (node.split 2 [4] 20 half) fun sides =>
        (∃ lower upper lowerChildren upperChildren,
          SplitReads [[1], [3], [4], [5]] [10, 11, 12, 20, 13] lower upper lowerChildren
            upperChildren sides) ∧
        SplitFits node sides := by
  have room : Room [[1], [3], [5]] := ⟨by decide, by decide⟩
  have arity : [10, 11, 12, (13 : PageIndex)].length = [[(1 : UInt8)], [3], [5]].length + 1 := rfl
  rcases exists_built_of_room room arity with ⟨node, _, holds⟩
  have small : ∀ other ∈ ([[1], [3], [5]] : List Bytes), other.length ≤ maxKeySize := by decide
  have smallNew : [(4 : UInt8)].length ≤ maxKeySize := by decide
  have several : 2 ≤ node.count := by
    rw [holds.count_eq]
    decide
  rcases split_separates holds several small smallNew several 20 with
    ⟨separates, lacksBytes, midpoint, half, _, _, halves, sides, splits, fits⟩
  rw [splitPoint_eq several] at halves
  cases halves
  have parts := separates _ sides (by omega) (by omega) splits
  exact ⟨node, _, holds, sides, splits, parts, fits⟩

end PagedMap.Node
