import PagedMap.Tree.Split
import PagedMap.Proofs.Page.LeafUpdates
import PagedMap.Proofs.Page.NodeUpdates

/-!
# Splits of pages

Splitting a leaf or a node at `half` to write something yields two pages which together hold the
list with the new item in its place, cut behind its first `half` items. Of a node the item at the
cut moves up. Cut at the split point, both sides have room for what they are to hold.
-/

namespace PagedMap

theorem splitPoint_eq {count : Nat} (several : 2 ≤ count) (lacksBytes : Bool) (midpoint : Nat) :
    splitPoint count lacksBytes midpoint =
      .ok (min (max (if lacksBytes then midpoint else count / 2) 1) (count - 1)) := by
  rw [splitPoint, bind_of_eq_ok (Fault.within_of (by simpa using several))]
  rfl

-- A midpoint at either end still leaves an item on each side.
example : splitPoint 5 true 0 = .ok 1 ∧ splitPoint 5 true 5 = .ok 4 := ⟨rfl, rfl⟩

namespace Leaf

variable {leaf : Leaf} {front middle back : List Record} {record old : Record} {half : Nat}

/-- Two leaves that a leaf was split into, with what they hold. -/
structure SplitInto (leaf : Leaf) (lower upper : List Record) (sides : Leaf × Leaf) : Prop where
  left : sides.1.Holds lower
  right : sides.2.Holds upper
  leftNext : sides.1.next = leaf.next
  rightNext : sides.2.next = leaf.next

/-- Moving the records from the split point on into an empty leaf divides the leaf there. -/
theorem moveTail_yields (holds : leaf.Holds (front ++ back)) :
    Yields (leaf.move (empty leaf.next) 0 front.length leaf.count)
      (SplitInto leaf front back) := by
  have whole : leaf.Holds (front ++ back ++ []) := by rwa [List.append_nil]
  have fewer : back.length < 256 := by
    have := holds.length_lt
    rw [List.length_append] at this
    omega
  have lighter : load back ≤ leafCapacity :=
    Nat.le_trans (load_mono (by simp)) holds.fits
  have moves := (whole.move_yieldsWhere [] [] (empty_holds leaf.next)).yields
    ⟨by simpa using lighter, by simpa using fewer⟩
  rw [← holds.count_eq] at moves
  apply moves.mono
  rintro ⟨kept, filled⟩ ⟨keptHolds, keptNext, filledHolds, filledNext⟩
  exact ⟨by simpa using keptHolds, by simpa using filledHolds, keptNext, filledNext⟩

/-- A record that belongs before the cut goes into the left half. -/
theorem split_insert_left (holds : leaf.Holds (front ++ (middle ++ back)))
    (half_eq : half = front.length + middle.length + 1)
    (few : (front ++ record :: middle).length < 256)
    (fits : load (front ++ record :: middle) ≤ leafCapacity) :
    Yields (leaf.split ⟨front.length, false⟩ record.1 record.2 half)
      (SplitInto leaf (front ++ record :: middle) back) := by
  have into : front.length < half := by omega
  have cut : half - 1 = (front ++ middle).length := by
    rw [List.length_append]
    omega
  rw [← List.append_assoc] at holds
  rw [split]
  simp only [if_pos into, cut, Bool.false_eq_true, if_false]
  apply Yields.bind (moveTail_yields holds)
  rintro ⟨left, right⟩ sides
  apply Yields.bind (sides.left.insert_yields few fits)
  rintro changed ⟨changedHolds, changedNext⟩
  exact Yields.pure ⟨changedHolds, sides.right, changedNext.trans sides.leftNext, sides.rightNext⟩

/-- A record that belongs behind the cut goes into the right half. -/
theorem split_insert_right (holds : leaf.Holds (front ++ middle ++ back))
    (half_eq : half = front.length) (few : (middle ++ record :: back).length < 256)
    (fits : load (middle ++ record :: back) ≤ leafCapacity) :
    Yields (leaf.split ⟨(front ++ middle).length, false⟩ record.1 record.2 half)
      (SplitInto leaf front (middle ++ record :: back)) := by
  have into : ¬(front ++ middle).length < front.length := by
    rw [List.length_append]
    omega
  have position : (front ++ middle).length - front.length = middle.length := by
    rw [List.length_append, Nat.add_sub_cancel_left]
  rw [List.append_assoc] at holds
  rw [split]
  simp only [half_eq, if_neg into, position, Bool.false_eq_true, if_false]
  apply Yields.bind (moveTail_yields holds)
  rintro ⟨left, right⟩ sides
  apply Yields.bind (sides.right.insert_yields few fits)
  rintro changed ⟨changedHolds, changedNext⟩
  exact Yields.pure ⟨sides.left, changedHolds, sides.leftNext, changedNext.trans sides.rightNext⟩

/-- A value is replaced in the left half if its record ended up there. -/
theorem split_setValue_left {value : Bytes} (holds : leaf.Holds (front ++ old :: middle ++ back))
    (half_eq : half = front.length + 1 + middle.length + 1 ∨
      half = front.length + 1 ∧ middle = [])
    (fits : load (front ++ (old.1, value) :: middle) ≤ leafCapacity) :
    Yields (leaf.split ⟨front.length + 1, true⟩ old.1 value half)
      (SplitInto leaf (front ++ (old.1, value) :: middle) back) := by
  have cut : (if front.length + 1 < half then half - 1 else half) =
      (front ++ old :: middle).length := by
    rw [List.length_append, List.length_cons]
    rcases half_eq with rfl | ⟨rfl, rfl⟩
    · rw [if_pos (by omega)]
      omega
    · rw [if_neg (by simp)]
      rfl
  have before : front.length < (front ++ old :: middle).length := by
    rw [List.length_append, List.length_cons]
    omega
  rw [split]
  simp only [cut]
  apply Yields.bind (moveTail_yields holds)
  rintro ⟨left, right⟩ sides
  simp only [if_true, Nat.add_sub_cancel, if_pos before]
  apply Yields.bind (sides.left.setValue_yields fits)
  rintro changed ⟨changedHolds, changedNext⟩
  exact Yields.pure ⟨changedHolds, sides.right, changedNext.trans sides.leftNext, sides.rightNext⟩

/-- A value of a record behind the split point is set in the new leaf. -/
theorem split_setValue_right {value : Bytes}
    (holds : leaf.Holds (front ++ (middle ++ old :: back))) (half_eq : half = front.length)
    (fits : load (middle ++ (old.1, value) :: back) ≤ leafCapacity) :
    Yields (leaf.split ⟨(front ++ middle).length + 1, true⟩ old.1 value half)
      (SplitInto leaf front (middle ++ (old.1, value) :: back)) := by
  have into : ¬(front ++ middle).length + 1 < front.length := by
    rw [List.length_append]
    omega
  have after : ¬(front ++ middle).length < front.length := by
    rw [List.length_append]
    omega
  have position : (front ++ middle).length - front.length = middle.length := by
    rw [List.length_append, Nat.add_sub_cancel_left]
  rw [split]
  simp only [half_eq, if_neg into]
  apply Yields.bind (moveTail_yields holds)
  rintro ⟨left, right⟩ sides
  simp only [if_true, Nat.add_sub_cancel, if_neg after, position]
  apply Yields.bind (sides.right.setValue_yields fits)
  rintro changed ⟨changedHolds, changedNext⟩
  exact Yields.pure ⟨sides.left, changedHolds, sides.leftNext, changedNext.trans sides.rightNext⟩

/-- Splitting a leaf to insert a record cuts the list with the record behind its first `half`
records. -/
theorem split_insert_yields (holds : leaf.Holds (front ++ back)) (positive : 1 ≤ half)
    (inside : half < (front ++ back).length)
    (fitsLeft : load ((front ++ record :: back).take half) ≤ leafCapacity)
    (fitsRight : load ((front ++ record :: back).drop half) ≤ leafCapacity) :
    ∃ lower upper, front ++ record :: back = lower ++ upper ∧ lower.length = half ∧
      Yields (leaf.split ⟨front.length, false⟩ record.1 record.2 half)
        (SplitInto leaf lower upper) := by
  have few := holds.length_lt
  simp only [List.length_append] at few inside
  -- The new record goes to the left part just if its place is before the cut.
  by_cases before : front.length < half
  · have within : half - front.length - 1 ≤ back.length := by omega
    rcases exists_split_of_le within with ⟨middle, rest, rfl, length_middle⟩
    have length_lower : (front ++ record :: middle).length = half := by
      rw [List.length_append, List.length_cons]
      omega
    have records_eq : front ++ record :: (middle ++ rest) = (front ++ record :: middle) ++ rest := by
      simp
    refine ⟨front ++ record :: middle, rest, records_eq, length_lower, ?_⟩
    rw [records_eq, List.take_left' length_lower] at fitsLeft
    apply split_insert_left holds (by omega) ?_ fitsLeft
    simp only [List.length_append, List.length_cons] at few inside ⊢
    omega
  · rcases exists_split_of_le (Nat.le_of_not_lt before) with ⟨first, middle, rfl, length_first⟩
    refine ⟨first, middle ++ record :: back, by simp, length_first, ?_⟩
    rw [List.append_assoc, List.drop_left' length_first] at fitsRight
    apply split_insert_right holds length_first.symm ?_ fitsRight
    simp only [List.length_append, List.length_cons] at few inside ⊢
    omega

/-- Splitting a leaf to replace the value of a record cuts the list with the new value behind its
first `half` records, or one earlier if the record comes before the last of these. -/
theorem split_setValue_yields {value : Bytes} {cut : Nat}
    (holds : leaf.Holds (front ++ old :: back)) (positive : 1 ≤ half)
    (inside : half < (front ++ old :: back).length)
    (cut_eq : cut = if front.length + 1 < half then half - 1 else half)
    (fitsLeft : load ((front ++ (old.1, value) :: back).take cut) ≤ leafCapacity)
    (fitsRight : load ((front ++ (old.1, value) :: back).drop cut) ≤ leafCapacity) :
    ∃ lower upper, front ++ (old.1, value) :: back = lower ++ upper ∧ lower.length = cut ∧
      Yields (leaf.split ⟨front.length + 1, true⟩ old.1 value half)
        (SplitInto leaf lower upper) := by
  simp only [List.length_append, List.length_cons] at inside
  -- The record goes to the left part just if it lies before the cut.
  by_cases before : front.length < cut
  · have within : cut - front.length - 1 ≤ back.length := by
      split at cut_eq <;> omega
    rcases exists_split_of_le within with ⟨middle, rest, rfl, length_middle⟩
    have length_lower : (front ++ (old.1, value) :: middle).length = cut := by
      rw [List.length_append, List.length_cons]
      omega
    have records_eq : front ++ (old.1, value) :: (middle ++ rest) =
        (front ++ (old.1, value) :: middle) ++ rest := by
      simp
    refine ⟨front ++ (old.1, value) :: middle, rest, records_eq, length_lower, ?_⟩
    rw [records_eq, List.take_left' length_lower] at fitsLeft
    apply split_setValue_left (by simpa using holds) ?_ fitsLeft
    split at cut_eq
    next into => exact Or.inl (by omega)
    next notInto =>
      refine Or.inr ⟨by omega, ?_⟩
      exact List.eq_nil_of_length_eq_zero (by omega)
  · have cutAtHalf : cut = half := by
      split at cut_eq <;> omega
    rcases exists_split_of_le (cutAtHalf ▸ Nat.le_of_not_lt before) with
      ⟨first, middle, rfl, length_first⟩
    refine ⟨first, middle ++ (old.1, value) :: back, by simp, by omega, ?_⟩
    rw [List.append_assoc, List.drop_left' (by omega)] at fitsRight
    exact split_setValue_right (by simpa using holds) length_first.symm fitsRight

end Leaf

namespace Node

variable {node : Node} {front middle back : List Bytes} {key separator : Bytes}
  {left between right : List PageIndex} {child : PageIndex} {half : Nat}

/-- What a node was split into: two nodes and the key between them. -/
structure SplitInto (lower : List Bytes) (separator : Bytes) (upper : List Bytes)
    (lowerChildren upperChildren : List PageIndex) (sides : NodeSplit) : Prop where
  left : sides.left.Holds lower lowerChildren
  separator_eq : sides.separator = separator
  right : sides.right.Holds upper upperChildren

/-- Moving the keys from the split point on, with the children to their right, into a node with its
first child divides the node there. -/
theorem moveTail_yields (holds : node.Holds (front ++ back) (left ++ right))
    (aligned : left.length = front.length + 1) (leftmost : PageIndex) :
    Yields (node.move (single leftmost) 0 front.length node.count) fun (kept, filled) =>
      kept.Holds front left ∧ filled.Holds back (leftmost :: right) := by
  have arity := holds.arity
  have whole : node.Holds (front ++ back ++ []) (left ++ right ++ []) := by
    rwa [List.append_nil, List.append_nil]
  have fewer : back.length < 256 := by
    have := holds.length_lt
    rw [List.length_append] at this
    omega
  have lighter : load back ≤ nodeCapacity :=
    Nat.le_trans (load_mono (by simp)) holds.fits
  have sameLength : right.length = back.length := by
    simp only [List.length_append] at arity
    omega
  have moves := (whole.move_yieldsWhere aligned sameLength [] [] [leftmost] []
    (single_holds leftmost) rfl).yields ⟨by simpa using lighter, by simpa using fewer⟩
  rw [← holds.count_eq] at moves
  apply moves.mono
  rintro ⟨kept, filled⟩ ⟨keptHolds, filledHolds⟩
  exact ⟨by simpa using keptHolds, by simpa using filledHolds⟩

/-- A key before the separator goes into the left half, with its child. -/
theorem split_insert_left {leftmost : PageIndex}
    (holds : node.Holds (front ++ middle ++ separator :: back)
      (left ++ between ++ leftmost :: right))
    (aligned : left.length = front.length + 1) (sameLength : between.length = middle.length)
    (key : Bytes) (child : PageIndex) :
    YieldsWhere (load (front ++ key :: middle) ≤ nodeCapacity)
      (node.split front.length key child (front.length + middle.length + 1))
      (SplitInto (front ++ key :: middle) separator back (left ++ child :: between)
        (leftmost :: right)) := by
  have few : (front ++ key :: middle).length < 256 := by
    have := holds.length_lt
    simp only [List.length_append, List.length_cons] at this ⊢
    omega
  have cut : front.length + middle.length + 1 - 1 = (front ++ middle).length := by
    rw [List.length_append, Nat.add_sub_cancel]
  have next : front.length + middle.length + 1 = ((front ++ middle) ++ [separator]).length := by
    simp [Nat.add_assoc]
  have keyHolds : node.Holds ((front ++ middle) ++ [separator] ++ back)
      ((left ++ between) ++ [leftmost] ++ right) := by
    simpa using holds
  have childIndex : ((front.length + middle.length + 1 : Nat) : Int) - 1 =
      ((left ++ between).length : Int) - 1 := by
    rw [List.length_append]
    omega
  rw [split, if_pos (by omega), cut, bind_of_eq_ok holds.key_eq,
    bind_of_eq_ok (holds.child_eq childIndex), next]
  apply YieldsWhere.bind (moveTail_yields keyHolds (by
    simp only [List.length_append, List.length_cons, List.length_nil]
    omega) leftmost)
  rintro ⟨kept, filled⟩ ⟨keptHolds, filledHolds⟩
  have keptWhole : kept.Holds ((front ++ middle) ++ [separator] ++ [])
      ((left ++ between) ++ [leftmost] ++ []) := by
    simpa using keptHolds
  apply YieldsWhere.bind (keptWhole.remove_yields (by
    simp only [List.length_append]
    omega) rfl)
  intro shortened shortenedHolds
  rw [List.append_nil, List.append_nil] at shortenedHolds
  have inserts := (shortenedHolds.insert_yieldsWhere aligned key child).congr
    (iff_self_and.mpr fun _ => few)
  exact inserts.map fun changed changedHolds => ⟨changedHolds, rfl, filledHolds⟩

theorem split_insert_between (holds : node.Holds (front ++ back) (left ++ right))
    (aligned : left.length = front.length + 1) :
    Yields (node.split front.length key child front.length)
      (SplitInto front key back left (child :: right)) := by
  rw [split, if_neg (by omega), if_pos rfl]
  apply Yields.bind (moveTail_yields holds aligned child)
  rintro ⟨kept, filled⟩ ⟨keptHolds, filledHolds⟩
  exact Yields.pure ⟨keptHolds, rfl, filledHolds⟩

/-- A key behind the separator goes into the right half, with its child. -/
theorem split_insert_right {leftmost : PageIndex}
    (holds : node.Holds (front ++ separator :: (middle ++ back))
      (left ++ leftmost :: (between ++ right)))
    (aligned : left.length = front.length + 1) (sameLength : between.length = middle.length)
    (key : Bytes) (child : PageIndex) :
    YieldsWhere (load (middle ++ key :: back) ≤ nodeCapacity)
      (node.split (front ++ separator :: middle).length key child front.length)
      (SplitInto front separator (middle ++ key :: back) left
        (leftmost :: between ++ child :: right)) := by
  have few : (middle ++ key :: back).length < 256 := by
    have := holds.length_lt
    simp only [List.length_append, List.length_cons] at this ⊢
    omega
  have below : ¬(front ++ separator :: middle).length < front.length := by
    rw [List.length_append]
    omega
  have notBetween : (front ++ separator :: middle).length ≠ front.length := by
    rw [List.length_append, List.length_cons]
    omega
  have next : front.length + 1 = (front ++ [separator]).length := by simp
  have position : (front ++ separator :: middle).length - 1 - front.length = middle.length := by
    rw [List.length_append, List.length_cons]
    omega
  have tailHolds : node.Holds ((front ++ [separator]) ++ (middle ++ back))
      ((left ++ [leftmost]) ++ (between ++ right)) := by
    simpa using holds
  rw [split, if_neg below, if_neg notBetween, bind_of_eq_ok holds.key_eq,
    bind_of_eq_ok (holds.child_eq (by omega)), next, position]
  apply YieldsWhere.bind (moveTail_yields tailHolds (by
    simp only [List.length_append, List.length_cons, List.length_nil]
    omega) leftmost)
  rintro ⟨kept, filled⟩ ⟨keptHolds, filledHolds⟩
  have keptWhole : kept.Holds (front ++ [separator] ++ []) (left ++ [leftmost] ++ []) := by
    simpa using keptHolds
  apply YieldsWhere.bind (keptWhole.remove_yields aligned rfl)
  intro shortened shortenedHolds
  rw [List.append_nil, List.append_nil] at shortenedHolds
  have filledParts : filled.Holds (middle ++ back) ((leftmost :: between) ++ right) := filledHolds
  have inserts := (filledParts.insert_yieldsWhere (by simpa using sameLength) key child).congr
    (iff_self_and.mpr fun _ => few)
  exact inserts.map fun changed changedHolds => ⟨shortenedHolds, rfl, changedHolds⟩

/-- Splitting a node cuts its keys with the new one in two, behind the first `half` of them. The
key at the cut is promoted, and the children are cut to its left and right. The node is split where
the side that gets the new key has room for it. -/
theorem split_yieldsWhere (holds : node.Holds (front ++ back) (left ++ right))
    (aligned : left.length = front.length + 1) (key : Bytes) (child : PageIndex)
    (inside : half < (front ++ back).length) :
    ∃ lower separator upper lowerChildren upperChildren,
      front ++ key :: back = lower ++ separator :: upper ∧
      left ++ child :: right = lowerChildren ++ upperChildren ∧
      lower.length = half ∧ lowerChildren.length = half + 1 ∧
      YieldsWhere (load lower ≤ nodeCapacity ∧ load upper ≤ nodeCapacity)
        (node.split front.length key child half)
        (SplitInto lower separator upper lowerChildren upperChildren) := by
  have arity := holds.arity
  have fits {part : List Bytes} (sublist : part.Sublist (front ++ back)) :
      load part ≤ nodeCapacity :=
    Nat.le_trans (load_mono sublist) holds.fits
  simp only [List.length_append] at arity inside
  rcases Nat.lt_trichotomy front.length half with before | rfl | after
  · -- The key goes to the left, and the key before the cut of the old keys is promoted.
    have keyBefore : half - front.length - 1 < back.length := by omega
    rcases exists_cons_of_lt keyBefore with ⟨middle, separator, rest, rfl, length_middle⟩
    have childBefore : half - front.length - 1 < right.length := by omega
    rcases exists_cons_of_lt childBefore with ⟨between, leftmost, others, rfl, length_between⟩
    have half_eq : half = front.length + middle.length + 1 := by omega
    refine ⟨front ++ key :: middle, separator, rest, left ++ child :: between,
      leftmost :: others, by simp, by simp, ?_, ?_, ?_⟩
    · simp only [List.length_append, List.length_cons]
      omega
    · simp only [List.length_append, List.length_cons]
      omega
    · rw [half_eq]
      rw [← List.append_assoc, ← List.append_assoc] at holds
      rw [← List.append_assoc] at fits
      exact (split_insert_left holds aligned (by omega) key child).congr
        (and_iff_left (fits ((List.sublist_cons_self _ _).trans (List.sublist_append_right _ _))))
  · refine ⟨front, key, back, left, child :: right, rfl, rfl, rfl, aligned, ?_⟩
    exact YieldsWhere.of_yields ⟨fits (by simp), fits (by simp)⟩ (split_insert_between holds aligned)
  · -- The key goes to the right, and the key behind the cut of the old keys is promoted.
    rcases exists_cons_of_lt after with ⟨first, separator, middle, rfl, rfl⟩
    simp only [List.length_append, List.length_cons] at aligned arity inside
    have childBehind : first.length + 1 < left.length := by omega
    rcases exists_cons_of_lt childBehind with ⟨kept, leftmost, between, rfl, length_kept⟩
    simp only [List.length_append, List.length_cons] at aligned arity
    refine ⟨first, separator, middle ++ key :: back, kept, leftmost :: between ++ child :: right,
      by simp, by simp, rfl, length_kept, ?_⟩
    rw [List.append_assoc, List.append_assoc] at holds
    exact (split_insert_right holds length_kept (by omega) key child).congr
      (and_iff_right (fits (by simp)))

/-- Wherever the new key belongs, left of the separator, right of it or in its place, the two halves
and the separator are the old keys with the new one among them. -/
theorem split_yields (holds : node.Holds (front ++ back) (left ++ right))
    (aligned : left.length = front.length + 1) (child : PageIndex)
    (inside : half < (front ++ back).length)
    (fitsLeft : load ((front ++ key :: back).take half) ≤ nodeCapacity)
    (fitsRight : load ((front ++ key :: back).drop (half + 1)) ≤ nodeCapacity) :
    ∃ lower separator upper lowerChildren upperChildren,
      front ++ key :: back = lower ++ separator :: upper ∧
      left ++ child :: right = lowerChildren ++ upperChildren ∧
      lower.length = half ∧ lowerChildren.length = half + 1 ∧
      Yields (node.split front.length key child half)
        (SplitInto lower separator upper lowerChildren upperChildren) := by
  rcases split_yieldsWhere holds aligned key child inside with
    ⟨lower, separator, upper, lowerChildren, upperChildren, keys_eq, children_eq, length_lower,
      length_children, splits⟩
  refine ⟨lower, separator, upper, lowerChildren, upperChildren, keys_eq, children_eq,
    length_lower, length_children, splits.yields ⟨?_, ?_⟩⟩
  · rwa [keys_eq, List.take_left' length_lower] at fitsLeft
  · have cut : lower ++ separator :: upper = (lower ++ [separator]) ++ upper := by simp
    rwa [keys_eq, cut, List.drop_left' (by simp [length_lower])] at fitsRight

end Node

end PagedMap
