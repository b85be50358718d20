import PagedMap.Proofs.Page.NodeUpdates

/-!
# Nodes as lists of keys and children

A node that was made by the operations on nodes reads as a list of keys and a list of children, one
child more than keys. Here the operations are described by what they do to the two lists. Key `index`
goes with the child to its right, which comes at position `index + 1` of the children, so that a range
of keys goes with the range of children that is shifted by one.
-/

namespace PagedMap.Node

variable {node target : Node} {keys others : List Bytes} {children otherChildren : List PageIndex}
  {index position first stop : Nat}

/-- A node that was made from nodes without keys, or with one, by the operations on nodes. -/
inductive Built : Node → Prop
  | single (leftmost : PageIndex) : Built (single leftmost)
  | pair {node : Node} {key : Bytes} {left right : PageIndex}
      (makes : pair key left right = .ok node) : Built node
  | insert {node changed : Node} {index : Nat} {key : Bytes} {child : PageIndex}
      (built : Built node) (inserts : node.insert index key child = .ok changed) : Built changed
  | remove {node changed : Node} {first stop : Nat} (built : Built node)
      (removes : node.remove first stop = .ok changed) : Built changed
  | setChild {node changed : Node} {index : Int} {child : PageIndex} (built : Built node)
      (inside : index < node.count) (sets : node.setChild index child = .ok changed) : Built changed
  | kept {source target kept filled : Node} {position first stop : Nat} (built : Built source)
      (targetBuilt : Built target)
      (moves : source.move target position first stop = .ok (kept, filled)) : Built kept
  | filled {source target kept filled : Node} {position first stop : Nat} (built : Built source)
      (targetBuilt : Built target)
      (moves : source.move target position first stop = .ok (kept, filled)) : Built filled

/-- A node has room for keys with their children, and its header can count them. -/
structure Room (keys : List Bytes) : Prop where
  fits : load keys ≤ nodeCapacity
  counted : keys.length ≤ 255

theorem room_iff : Room keys ↔ load keys ≤ nodeCapacity ∧ keys.length < 256 :=
  ⟨fun room => ⟨room.fits, Nat.lt_succ_of_le room.counted⟩,
    fun ⟨fits, few⟩ => ⟨fits, Nat.le_of_lt_succ few⟩⟩

/-- A node reads as keys and children. -/
structure Reads (node : Node) (keys : List Bytes) (children : List PageIndex) : Prop where
  keys_eq : node.keys = .ok keys
  children_eq : node.children = .ok children

/-- What a move of keys makes of the lists of two nodes: a range is cut out of the one, and put in at
a position of the other. -/
structure Moved (node target : Node) (keys : List Bytes) (children : List PageIndex)
    (others : List Bytes) (otherChildren : List PageIndex) (position first stop : Nat)
    (sides : Node × Node) : Prop where
  kept : sides.1.Reads (keys.take first ++ keys.drop stop)
    (children.take (first + 1) ++ children.drop (stop + 1))
  filled : sides.2.Reads
    (others.take position ++ keys.extract first stop ++ others.drop position)
    (otherChildren.take (position + 1) ++ children.extract (first + 1) (stop + 1) ++
      otherChildren.drop (position + 1))
  idle : first = stop → sides = (node, target)

/-- A node counts the bytes of a list of keys between children, and the operations act on it as on
the lists: each yields the changed lists where the positions are in them and the result has room, and
a fault elsewhere. -/
structure Refines (node : Node) (keys : List Bytes) (children : List PageIndex) : Prop where
  keys_eq : node.keys = .ok keys
  children_eq : node.children = .ok children
  arity : children.length = keys.length + 1
  head_eq : node.counters.head.toNat = 2 * slotsFor keys.length + keys.flatten.length
  tail_eq : node.counters.tail.toNat = 8 * (keys.length + 1)
  used_le : node.counters.head.toNat + node.counters.tail.toNat ≤ nodeCapacity
  insert (index : Nat) (key : Bytes) (child : PageIndex) :
    YieldsWhere (index ≤ keys.length ∧ Room (keys.insertIdx index key))
      (node.insert index key child) fun changed =>
        changed.Reads (keys.insertIdx index key) (children.insertIdx (index + 1) child)
  remove (first stop : Nat) :
    YieldsWhere (first ≤ stop ∧ stop ≤ keys.length) (node.remove first stop) fun changed =>
      changed.Reads (keys.take first ++ keys.drop stop)
        (children.take (first + 1) ++ children.drop (stop + 1))
  setChild (index : Int) (child : PageIndex) (inside : index < keys.length) :
    YieldsWhere (-1 ≤ index) (node.setChild index child) fun changed =>
      changed.Reads keys (children.set (index + 1).toNat child)
  move {target : Node} {others : List Bytes} {otherChildren : List PageIndex}
      (built : target.Built) (reads : target.Reads others otherChildren)
      (position first stop : Nat) :
    YieldsWhere
      ((first ≤ stop ∧ stop ≤ keys.length) ∧ (first < stop → position ≤ others.length ∧
        Room (others.take position ++ keys.extract first stop ++ others.drop position)))
      (node.move target position first stop)
      (Moved node target keys children others otherChildren position first stop)
  /-- The sizes are those that a byte string in memory may have. -/
  overflowsWith (keySize : Nat)
      (small : 2 * slotsFor (keys.length + 1) + (keys.flatten.length + keySize) +
        8 * (keys.length + 2) < Word.signedLimit) :
    node.overflowsWith keySize = .ok (decide (nodeCapacity <
      2 * slotsFor (keys.length + 1) + (keys.flatten.length + keySize) + 8 * (keys.length + 2)))

namespace Holds

theorem exists_split (holds : node.Holds keys children) (inside : index ≤ keys.length) :
    ∃ front back left right, keys = front ++ back ∧ children = left ++ right ∧
      front.length = index ∧ left.length = front.length + 1 := by
  have arity := holds.arity
  rcases exists_split_of_le inside with ⟨front, back, keys_eq, rfl⟩
  have within : front.length + 1 ≤ children.length := by omega
  rcases exists_split_of_le within with ⟨left, right, children_eq, aligned⟩
  exact ⟨front, back, left, right, keys_eq, children_eq, rfl, aligned⟩

/-- A range of keys goes along with the children to the right of these keys. -/
theorem exists_range (holds : node.Holds keys children) (ordered : first ≤ stop)
    (inside : stop ≤ keys.length) :
    ∃ front middle back left between right, keys = front ++ middle ++ back ∧
      children = left ++ between ++ right ∧ front.length = first ∧
      (front ++ middle).length = stop ∧ left.length = front.length + 1 ∧
      between.length = middle.length ∧ (left ++ between).length = (front ++ middle).length + 1 := by
  rcases holds.exists_split inside with
    ⟨near, back, nearLeft, right, rfl, rfl, rfl, nearAligned⟩
  rcases exists_split_of_le ordered with ⟨front, middle, rfl, rfl⟩
  have within : front.length + 1 ≤ nearLeft.length := by omega
  rcases exists_split_of_le within with ⟨left, between, rfl, aligned⟩
  refine ⟨front, middle, back, left, between, right, rfl, rfl, rfl, rfl, aligned, ?_, nearAligned⟩
  rw [List.length_append, List.length_append] at nearAligned
  omega

theorem insertIdx_yieldsWhere (holds : node.Holds keys children) (index : Nat) (key : Bytes)
    (child : PageIndex) :
    YieldsWhere (index ≤ keys.length ∧ Room (keys.insertIdx index key))
      (node.insert index key child) fun changed =>
        changed.Holds (keys.insertIdx index key) (children.insertIdx (index + 1) child) := by
  apply YieldsWhere.and_of_only
  · intro changed inserts
    simpa [holds.count_eq] using Fault.of_require inserts
  · intro inside
    rcases holds.exists_split inside with ⟨front, back, left, right, rfl, rfl, rfl, aligned⟩
    rw [insertIdx_append, ← aligned, insertIdx_append]
    exact (holds.insert_yieldsWhere aligned key child).congr room_iff

theorem remove_yieldsWhere (holds : node.Holds keys children) (first stop : Nat) :
    YieldsWhere (first ≤ stop ∧ stop ≤ keys.length) (node.remove first stop) fun changed =>
      changed.Holds (keys.take first ++ keys.drop stop)
        (children.take (first + 1) ++ children.drop (stop + 1)) := by
  apply YieldsWhere.of_only
  · rintro ⟨ordered, inside⟩
    rcases holds.exists_range ordered inside with
      ⟨front, middle, back, left, between, right, rfl, rfl, rfl, rfl, aligned, sameLength, together⟩
    rw [← aligned, ← together]
    simp only [take_append_append, List.drop_left]
    exact holds.remove_yields aligned sameLength
  · intro changed removes
    simpa [holds.count_eq] using Fault.of_require removes

/-- Children are counted from the one to the left of all keys, which has index minus one. -/
theorem set_yieldsWhere (holds : node.Holds keys children) {index : Int} (child : PageIndex)
    (inside : index < keys.length) :
    YieldsWhere (-1 ≤ index) (node.setChild index child) fun changed =>
      changed.Holds keys (children.set (index + 1).toNat child) := by
  apply YieldsWhere.of_only
  · intro counted
    have arity := holds.arity
    have within : (index + 1).toNat < children.length := by omega
    rcases exists_cons_of_lt within with ⟨left, old, right, rfl, place⟩
    rw [← place, List.set_append_right _ _ (Nat.le_refl _), Nat.sub_self, List.set_cons_zero]
    exact holds.setChild_yields (by omega)
  · intro changed sets
    simpa using Fault.of_require sets

theorem position_le_of_move (targetHolds : target.Holds others otherChildren)
    (some : first < stop) {sides : Node × Node}
    (moves : node.move target position first stop = .ok sides) : position ≤ others.length := by
  rw [Node.move, bind_eq_ok_iff] at moves
  rcases moves with ⟨_, _, moves⟩
  rw [if_neg (Nat.ne_of_lt some)] at moves
  simpa [targetHolds.count_eq] using Fault.of_require moves

/-- Moving keys takes along the child to the right of each, with the same conditions as for the
records of a leaf. -/
theorem extract_yieldsWhere (holds : node.Holds keys children)
    (targetHolds : target.Holds others otherChildren) (position first stop : Nat) :
    YieldsWhere
      ((first ≤ stop ∧ stop ≤ keys.length) ∧ (first < stop → position ≤ others.length ∧
        Room (others.take position ++ keys.extract first stop ++ others.drop position)))
      (node.move target position first stop) fun (kept, filled) =>
        kept.Holds (keys.take first ++ keys.drop stop)
          (children.take (first + 1) ++ children.drop (stop + 1)) ∧
        filled.Holds (others.take position ++ keys.extract first stop ++ others.drop position)
          (otherChildren.take (position + 1) ++ children.extract (first + 1) (stop + 1) ++
            otherChildren.drop (position + 1)) ∧
        (first = stop → (kept, filled) = (node, target)) := by
  apply YieldsWhere.and_of_only
  · intro sides moves
    simpa [holds.count_eq] using Fault.of_require moves
  · rintro ⟨ordered, inside⟩
    by_cases none : first = stop
    · subst none
      apply YieldsWhere.of_yields (fun some => absurd some (Nat.lt_irrefl first))
      rw [Node.move, bind_of_eq_ok (Fault.require_of (by simpa [holds.count_eq]) _), if_pos rfl]
      exact Yields.pure (by simpa using ⟨holds, targetHolds⟩)
    · have some : first < stop := Nat.lt_of_le_of_ne ordered none
      suffices moves : YieldsWhere (position ≤ others.length ∧
          Room (others.take position ++ keys.extract first stop ++ others.drop position))
          (node.move target position first stop) _ from moves.congr (imp_iff_right some)
      apply YieldsWhere.and_of_only
      · exact fun sides moves => targetHolds.position_le_of_move some moves
      · intro within
        rcases holds.exists_range ordered inside with
          ⟨front, middle, back, left, between, right, rfl, rfl, rfl, rfl, aligned, sameLength,
            together⟩
        rcases targetHolds.exists_split within with
          ⟨before, behind, targetLeft, targetRight, rfl, rfl, rfl, targetAligned⟩
        rw [← aligned, ← together, ← targetAligned]
        simp only [take_append_append, extract_append, List.take_left, List.drop_left]
        apply ((holds.move_yieldsWhere aligned sameLength before behind targetLeft targetRight
          targetHolds targetAligned).congr room_iff).mono
        rintro ⟨kept, filled⟩ ⟨keptHolds, filledHolds⟩
        exact ⟨keptHolds, filledHolds, fun same => absurd same none⟩

end Holds

/-- Every node that the operations made holds keys between children. -/
theorem Built.exists_holds (built : node.Built) :
    ∃ keys children, node.Holds keys children := by
  -- Every step ended with a value, so that its result holds the changed lists.
  induction built with
  | single leftmost => exact ⟨[], [leftmost], single_holds leftmost⟩
  | pair makes => exact ⟨_, _, ((single_holds _).insertIdx_yieldsWhere _ _ _).holds makes⟩
  | insert _ inserts ih =>
      rcases ih with ⟨keys, children, holds⟩
      exact ⟨_, _, (holds.insertIdx_yieldsWhere _ _ _).holds inserts⟩
  | remove _ removes ih =>
      rcases ih with ⟨keys, children, holds⟩
      exact ⟨_, _, (holds.remove_yieldsWhere _ _).holds removes⟩
  | setChild _ inside sets ih =>
      rcases ih with ⟨keys, children, holds⟩
      rw [holds.count_eq] at inside
      exact ⟨_, _, (holds.set_yieldsWhere _ inside).holds sets⟩
  | kept _ _ moves ih targetIH =>
      rcases ih with ⟨keys, children, holds⟩
      rcases targetIH with ⟨others, otherChildren, targetHolds⟩
      exact ⟨_, _, ((holds.extract_yieldsWhere targetHolds _ _ _).holds moves).1⟩
  | filled _ _ moves ih targetIH =>
      rcases ih with ⟨keys, children, holds⟩
      rcases targetIH with ⟨others, otherChildren, targetHolds⟩
      exact ⟨_, _, ((holds.extract_yieldsWhere targetHolds _ _ _).holds moves).2.1⟩

/-- Insertions make a node of any keys that it has room for, between any children. -/
theorem exists_built_of_room (room : Room keys) (arity : children.length = keys.length + 1) :
    ∃ node : Node, node.Built ∧ node.Holds keys children := by
  induction keys generalizing children with
  | nil =>
      rcases List.length_eq_one_iff.mp arity with ⟨leftmost, rfl⟩
      exact ⟨Node.single leftmost, .single leftmost, single_holds leftmost⟩
  | cons key rest ih =>
      match children, arity with
      | leftmost :: child :: others, arity =>
          have counted := room.counted
          rw [List.length_cons] at counted
          have lighter : load rest ≤ load (key :: rest) := load_mono (List.sublist_cons_self _ _)
          have fewer : (leftmost :: others).length = rest.length + 1 := by simpa using arity
          rcases ih ⟨Nat.le_trans lighter room.fits, by omega⟩ fewer with ⟨node, built, holds⟩
          rcases (holds.insertIdx_yieldsWhere 0 key child).yields ⟨Nat.zero_le _, room⟩ with
            ⟨changed, inserts, changedHolds⟩
          exact ⟨changed, .insert built inserts, changedHolds⟩

theorem Holds.reads (holds : node.Holds keys children) : node.Reads keys children :=
  ⟨holds.keys_eq, holds.children_eq⟩

/-- Whatever a node holds, its operations act on that. -/
theorem Holds.refines (holds : node.Holds keys children) : node.Refines keys children where
  keys_eq := holds.keys_eq
  children_eq := holds.children_eq
  arity := holds.arity
  head_eq := by
    rw [holds.head_eq, Region.footprint, tableSize, slotSize, Nat.mul_comm]
  tail_eq := by
    rw [holds.tail_eq, holds.arity, childSize]
  used_le := by
    have used := holds.used_eq
    have fits := holds.fits
    rw [Node.used, Counters.used] at used
    omega
  insert index key child := (holds.insertIdx_yieldsWhere index key child).mono
    fun _ changedHolds => changedHolds.reads
  remove first stop := (holds.remove_yieldsWhere first stop).mono
    fun _ changedHolds => changedHolds.reads
  setChild _ child inside := (holds.set_yieldsWhere child inside).mono
    fun _ changedHolds => changedHolds.reads
  move built reads position first stop := by
    rcases built.exists_holds with ⟨others, otherChildren, targetHolds⟩
    have sameKeys := targetHolds.keys_eq.symm.trans reads.keys_eq
    have sameChildren := targetHolds.children_eq.symm.trans reads.children_eq
    cases sameKeys
    cases sameChildren
    apply (holds.extract_yieldsWhere targetHolds position first stop).mono
    rintro ⟨kept, filled⟩ ⟨keptHolds, filledHolds, idle⟩
    exact ⟨keptHolds.reads, filledHolds.reads, idle⟩
  overflowsWith keySize small := by
    have load_eq : 2 * slotsFor (keys.length + 1) + (keys.flatten.length + keySize) +
        8 * (keys.length + 2) =
        tableSize (keys.length + 1) + (weigh routeSize keys + keySize) + 2 * childSize := by
      rw [weigh_routeSize, tableSize, slotSize, childSize]
      omega
    rw [load_eq] at small ⊢
    exact holds.overflowsWith_size small

/-- A node that the operations made is a list of keys between a list of children, and the operations
on it act on the lists. They end with a fault just where a position lies outside of the lists or the
result has no room. -/
theorem built_refines_keys (built : node.Built) :
    ∃ keys children, node.Refines keys children := by
  rcases built.exists_holds with ⟨keys, children, holds⟩
  exact ⟨keys, children, holds.refines⟩

/-- Twenty keys, for which a node needs two batches of slots. -/
def twentyKeys : List Bytes := (List.range 20).map fun number => [UInt8.ofNat number]

/-- The children between twenty keys. -/
def childrenOfTwenty : List PageIndex := (List.range 21).map fun number => Int64.ofNat number

/-- Seventeen of twenty keys are moved between the two keys of another node. -/
theorem built_refines_keys_moved : ∃ kept filled : Node, kept.Built ∧ filled.Built ∧
    kept.keys = .ok [[0], [1], [19]] ∧ kept.children = .ok [0, 1, 2, 20] ∧
    filled.keys = .ok ([1] :: twentyKeys.extract 2 19 ++ [[20]]) ∧
    filled.children = .ok (50 :: 51 :: childrenOfTwenty.extract 3 20 ++ [52]) ∧
    (∃ keys children, kept.Refines keys children) ∧
    ∃ keys children, filled.Refines keys children := by
  have roomSource : Room twentyKeys := ⟨by decide, by decide⟩
  have roomTarget : Room [[1], [20]] := ⟨by decide, by decide⟩
  have aritySource : childrenOfTwenty.length = twentyKeys.length + 1 := by decide
  have arityTarget :
      ([50, 51, 52] : List PageIndex).length = ([[1], [20]] : List Bytes).length + 1 := rfl
  rcases exists_built_of_room roomSource aritySource with ⟨source, built, holds⟩
  rcases exists_built_of_room roomTarget arityTarget with ⟨target, targetBuilt, targetHolds⟩
  rcases (holds.extract_yieldsWhere targetHolds 1 2 19).yields
    ⟨⟨by decide, by decide⟩, fun _ => ⟨by decide, by decide, by decide⟩⟩ with
    ⟨⟨kept, filled⟩, moves, keptHolds, filledHolds, _⟩
  have keptBuilt : kept.Built := .kept built targetBuilt moves
  have filledBuilt : filled.Built := .filled built targetBuilt moves
  exact ⟨kept, filled, keptBuilt, filledBuilt, keptHolds.keys_eq, keptHolds.children_eq,
    filledHolds.keys_eq, filledHolds.children_eq, built_refines_keys keptBuilt,
    built_refines_keys filledBuilt⟩

end PagedMap.Node
