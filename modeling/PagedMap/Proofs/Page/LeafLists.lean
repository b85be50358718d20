import PagedMap.Proofs.Page.LeafUpdates

/-!
# Leaves as lists of entries

A leaf that was made by the operations on leaves reads as a list of records. Here the operations
are described by what they do to this list, with positions counted in the list, for records of all
sizes: where the positions lie in the list and the result has room, the list of the changed leaf is
the list with the change, and everywhere else the operation ends with a fault.
-/

namespace PagedMap.Leaf

variable {leaf target : Leaf} {records others : List Record} {index position first stop : Nat}

/-- A leaf that was made from empty leaves by the operations on leaves. -/
inductive Built : Leaf → Prop
  | empty (next : PageIndex) : Built (empty next)
  | insert {leaf changed : Leaf} {index : Nat} {key value : Bytes} (built : Built leaf)
      (inserts : leaf.insert index key value = .ok changed) : Built changed
  | setValue {leaf changed : Leaf} {index : Nat} {value : Bytes} (built : Built leaf)
      (sets : leaf.setValue index value = .ok changed) : Built changed
  | setEntry {leaf changed : Leaf} {index : Nat} {key value : Bytes} (built : Built leaf)
      (sets : leaf.setEntry index key value = .ok changed) : Built changed
  | kept {source target kept filled : Leaf} {position first stop : Nat} (built : Built source)
      (targetBuilt : Built target)
      (moves : source.move target position first stop = .ok (kept, filled)) : Built kept
  | filled {source target kept filled : Leaf} {position first stop : Nat} (built : Built source)
      (targetBuilt : Built target)
      (moves : source.move target position first stop = .ok (kept, filled)) : Built filled
  | withNext {leaf : Leaf} (built : Built leaf) (next : PageIndex) : Built { leaf with next }

/-- A leaf has room for records, and its header can count them. -/
structure Room (records : List Record) : Prop where
  fits : load records ≤ leafCapacity
  counted : records.length ≤ 255

theorem room_iff : Room records ↔ load records ≤ leafCapacity ∧ records.length < 256 :=
  ⟨fun room => ⟨room.fits, Nat.lt_succ_of_le room.counted⟩,
    fun ⟨fits, few⟩ => ⟨fits, Nat.le_of_lt_succ few⟩⟩

/-- A leaf reads as records, and as the index of the leaf that follows. -/
structure Reads (leaf : Leaf) (records : List Record) (next : PageIndex) : Prop where
  entries_eq : leaf.entries = .ok records
  next_eq : leaf.next = next

/-- What a move of records makes of the two lists: a range is cut out of the one, and put in at a
position of the other. -/
structure Moved (leaf target : Leaf) (records others : List Record) (position first stop : Nat)
    (sides : Leaf × Leaf) : Prop where
  kept : sides.1.Reads (records.take first ++ records.drop stop) leaf.next
  filled : sides.2.Reads
    (others.take position ++ records.extract first stop ++ others.drop position) target.next
  idle : first = stop → sides = (leaf, target)

/-- A leaf counts the bytes of a list of records, and the operations act on it as on the list: each
yields the changed list where the positions are in it and the result has room, and a fault elsewhere.
The questions for room are answered by the bytes of the result. -/
structure Refines (leaf : Leaf) (records : List Record) : Prop where
  entries_eq : leaf.entries = .ok records
  used_eq : leaf.used = 4 * slotsFor records.length + weigh recordSize records
  used_le : leaf.used ≤ leafCapacity
  insert (index : Nat) (key value : Bytes) :
    YieldsWhere (index ≤ records.length ∧ Room (records.insertIdx index (key, value)))
      (leaf.insert index key value)
      fun changed => changed.Reads (records.insertIdx index (key, value)) leaf.next
  setValue (index : Nat) (value : Bytes) :
    YieldsWhere
      (index < records.length ∧ Room (records.modify index fun record => (record.1, value)))
      (leaf.setValue index value)
      fun changed => changed.Reads (records.modify index fun record => (record.1, value)) leaf.next
  setEntry (index : Nat) (key value : Bytes) :
    YieldsWhere (index < records.length ∧ Room (records.set index (key, value)))
      (leaf.setEntry index key value)
      fun changed => changed.Reads (records.set index (key, value)) leaf.next
  move {target : Leaf} {others : List Record} (built : target.Built)
      (reads : target.entries = .ok others) (position first stop : Nat) :
    YieldsWhere
      ((first ≤ stop ∧ stop ≤ records.length) ∧ (first < stop → position ≤ others.length ∧
        Room (others.take position ++ records.extract first stop ++ others.drop position)))
      (leaf.move target position first stop) (Moved leaf target records others position first stop)
  withNext (next : PageIndex) : { leaf with next }.Reads records next
  /-- The sizes are those that byte strings in memory may have together. -/
  overflowsWith (keySize valueSize : Nat)
      (small : 4 * slotsFor (records.length + 1) +
        (weigh recordSize records + keySize + valueSize) < Word.signedLimit) :
    leaf.overflowsWith keySize valueSize = .ok (decide (leafCapacity <
      4 * slotsFor (records.length + 1) + (weigh recordSize records + keySize + valueSize)))
  overflowsWithValue (index : Nat) (value : Bytes) :
    YieldsWhere
      (index < records.length ∧
        load (records.modify index fun record => (record.1, value)) < Word.limit)
      (leaf.overflowsWithValue index value.length) fun exceeds => exceeds =
        decide (leafCapacity < load (records.modify index fun record => (record.1, value)))
  overflowsWithEntry (index : Nat) (key value : Bytes) :
    YieldsWhere
      (index < records.length ∧ load (records.set index (key, value)) < Word.limit)
      (leaf.overflowsWithEntry index key.length value.length)
      fun exceeds => exceeds = decide (leafCapacity < load (records.set index (key, value)))

namespace Holds

theorem insertIdx_yieldsWhere (holds : leaf.Holds records) (index : Nat) (key value : Bytes) :
    YieldsWhere (index ≤ records.length ∧ Room (records.insertIdx index (key, value)))
      (leaf.insert index key value) fun changed =>
        changed.Holds (records.insertIdx index (key, value)) ∧ changed.next = leaf.next := by
  apply YieldsWhere.and_of_only
  · intro changed inserts
    simpa [holds.count_eq] using Fault.of_require inserts
  · intro inside
    rcases exists_split_of_le inside with ⟨front, back, rfl, rfl⟩
    rw [insertIdx_append]
    exact (holds.insert_yieldsWhere (key, value)).congr room_iff

theorem lt_of_value (holds : leaf.Holds records) {value : Bytes}
    (ends : leaf.value index = .ok value) : index < records.length := by
  simpa [holds.count_eq] using Fault.of_require ends

theorem lt_of_overflowsWithValue (holds : leaf.Holds records) {size : Nat} {exceeds : Bool}
    (ends : leaf.overflowsWithValue index size = .ok exceeds) : index < records.length := by
  rw [overflowsWithValue, bind_eq_ok_iff] at ends
  rcases ends with ⟨value, reads, _⟩
  exact holds.lt_of_value reads

theorem lt_of_overflowsWithEntry (holds : leaf.Holds records) {keySize valueSize : Nat}
    {exceeds : Bool} (ends : leaf.overflowsWithEntry index keySize valueSize = .ok exceeds) :
    index < records.length := by
  simp only [overflowsWithEntry, entrySize, bind_eq_ok_iff] at ends
  rcases ends with ⟨_, ⟨key, _, value, reads, _⟩, _⟩
  exact holds.lt_of_value reads

theorem room_iff_fits (holds : leaf.Holds records) {changed : List Record}
    (sameLength : changed.length = records.length) :
    Room changed ↔ load changed ≤ leafCapacity := by
  rw [room_iff, sameLength]
  exact and_iff_left holds.length_lt

/-- Setting a value succeeds just if the position is in the leaf and the leaf has room with the new
value. -/
theorem modify_yieldsWhere (holds : leaf.Holds records) (index : Nat) (value : Bytes) :
    YieldsWhere
      (index < records.length ∧ Room (records.modify index fun record => (record.1, value)))
      (leaf.setValue index value) fun changed =>
        changed.Holds (records.modify index fun record => (record.1, value)) ∧
          changed.next = leaf.next := by
  apply YieldsWhere.and_of_only
  · intro changed sets
    rw [Leaf.setValue, bind_eq_ok_iff] at sets
    rcases sets with ⟨_, answers, _⟩
    exact holds.lt_of_overflowsWithValue answers
  · intro inside
    rcases exists_cons_of_lt inside with ⟨front, record, back, rfl, rfl⟩
    rw [holds.room_iff_fits (by simp), List.modify_eq_take_cons_drop inside]
    simpa using holds.setValue_yieldsWhere value

theorem set_yieldsWhere (holds : leaf.Holds records) (index : Nat) (key value : Bytes) :
    YieldsWhere (index < records.length ∧ Room (records.set index (key, value)))
      (leaf.setEntry index key value) fun changed =>
        changed.Holds (records.set index (key, value)) ∧ changed.next = leaf.next := by
  apply YieldsWhere.and_of_only
  · intro changed sets
    rw [Leaf.setEntry, bind_eq_ok_iff] at sets
    rcases sets with ⟨_, answers, _⟩
    exact holds.lt_of_overflowsWithEntry answers
  · intro inside
    rcases exists_cons_of_lt inside with ⟨front, record, back, rfl, rfl⟩
    rw [holds.room_iff_fits (by simp)]
    simpa using holds.setEntry_yieldsWhere (key, value)

theorem overflowsWithValue_modify (holds : leaf.Holds records) (index : Nat) (value : Bytes) :
    YieldsWhere
      (index < records.length ∧
        load (records.modify index fun record => (record.1, value)) < Word.limit)
      (leaf.overflowsWithValue index value.length) fun exceeds => exceeds =
        decide (leafCapacity < load (records.modify index fun record => (record.1, value))) := by
  apply YieldsWhere.and_of_only
  · exact fun _ answers => holds.lt_of_overflowsWithValue answers
  · intro inside
    rcases exists_cons_of_lt inside with ⟨front, record, back, rfl, rfl⟩
    rw [List.modify_eq_take_cons_drop inside]
    simpa using holds.overflowsWithValue_yieldsWhere value

theorem overflowsWithEntry_set (holds : leaf.Holds records) (index : Nat) (key value : Bytes) :
    YieldsWhere
      (index < records.length ∧ load (records.set index (key, value)) < Word.limit)
      (leaf.overflowsWithEntry index key.length value.length)
      fun exceeds => exceeds = decide (leafCapacity < load (records.set index (key, value))) := by
  apply YieldsWhere.and_of_only
  · exact fun _ answers => holds.lt_of_overflowsWithEntry answers
  · intro inside
    rcases exists_cons_of_lt inside with ⟨front, record, back, rfl, rfl⟩
    simpa using holds.overflowsWithEntry_yieldsWhere (key, value)

theorem position_le_of_move (targetHolds : target.Holds others) (some : first < stop)
    {sides : Leaf × Leaf}
    (moves : leaf.move target position first stop = .ok sides) : position ≤ others.length := by
  rw [Leaf.move, bind_eq_ok_iff] at moves
  rcases moves with ⟨_, _, moves⟩
  rw [if_neg (Nat.ne_of_lt some)] at moves
  simpa [targetHolds.count_eq] using Fault.of_require moves

/-- Moving records succeeds just if the range lies in the one leaf and the other one has a place and
room for it. An empty range moves nothing and needs neither. -/
theorem extract_yieldsWhere (holds : leaf.Holds records) (targetHolds : target.Holds others)
    (position first stop : Nat) :
    YieldsWhere
      ((first ≤ stop ∧ stop ≤ records.length) ∧ (first < stop → position ≤ others.length ∧
        Room (others.take position ++ records.extract first stop ++ others.drop position)))
      (leaf.move target position first stop) fun (kept, filled) =>
        kept.Holds (records.take first ++ records.drop stop) ∧ kept.next = leaf.next ∧
        filled.Holds
          (others.take position ++ records.extract first stop ++ others.drop position) ∧
        filled.next = target.next ∧ (first = stop → (kept, filled) = (leaf, target)) := by
  apply YieldsWhere.and_of_only
  · intro sides moves
    simpa [holds.count_eq] using Fault.of_require moves
  · rintro ⟨ordered, inside⟩
    by_cases none : first = stop
    · subst none
      apply YieldsWhere.of_yields (fun some => absurd some (Nat.lt_irrefl first))
      rw [Leaf.move, bind_of_eq_ok (Fault.require_of (by simpa [holds.count_eq]) _), if_pos rfl]
      exact Yields.pure (by simpa using ⟨holds, targetHolds⟩)
    · have some : first < stop := Nat.lt_of_le_of_ne ordered none
      suffices moves : YieldsWhere (position ≤ others.length ∧
          Room (others.take position ++ records.extract first stop ++ others.drop position))
          (leaf.move target position first stop) _ from moves.congr (imp_iff_right some)
      apply YieldsWhere.and_of_only
      · exact fun sides moves => targetHolds.position_le_of_move some moves
      · intro within
        rcases exists_split_of_range ordered inside with ⟨front, middle, back, rfl, rfl, rfl⟩
        rcases exists_split_of_le within with ⟨before, behind, rfl, rfl⟩
        simp only [take_append_append, extract_append, List.take_left, List.drop_left]
        apply ((holds.move_yieldsWhere before behind targetHolds).congr room_iff).mono
        rintro ⟨kept, filled⟩ ⟨keptHolds, keptNext, filledHolds, filledNext⟩
        exact ⟨keptHolds, keptNext, filledHolds, filledNext, fun same => absurd same none⟩

end Holds

/-- Every leaf that the operations made holds a list of records. -/
theorem Built.exists_holds (built : leaf.Built) : ∃ records, leaf.Holds records := by
  -- Every step ended with a value, so that its result holds the changed list.
  induction built with
  | empty next => exact ⟨[], empty_holds next⟩
  | insert _ inserts ih =>
      rcases ih with ⟨records, holds⟩
      exact ⟨_, ((holds.insertIdx_yieldsWhere _ _ _).holds inserts).1⟩
  | setValue _ sets ih =>
      rcases ih with ⟨records, holds⟩
      exact ⟨_, ((holds.modify_yieldsWhere _ _).holds sets).1⟩
  | setEntry _ sets ih =>
      rcases ih with ⟨records, holds⟩
      exact ⟨_, ((holds.set_yieldsWhere _ _ _).holds sets).1⟩
  | kept _ _ moves ih targetIH =>
      rcases ih with ⟨records, holds⟩
      rcases targetIH with ⟨others, targetHolds⟩
      exact ⟨_, ((holds.extract_yieldsWhere targetHolds _ _ _).holds moves).1⟩
  | filled _ _ moves ih targetIH =>
      rcases ih with ⟨records, holds⟩
      rcases targetIH with ⟨others, targetHolds⟩
      exact ⟨_, ((holds.extract_yieldsWhere targetHolds _ _ _).holds moves).2.2.1⟩
  | withNext _ next ih =>
      rcases ih with ⟨records, holds⟩
      exact ⟨records, holds.withNext next⟩

/-- Insertions make a leaf of any records that it has room for. -/
theorem exists_built_of_room (next : PageIndex) (room : Room records) :
    ∃ leaf : Leaf, leaf.Built ∧ leaf.Holds records ∧ leaf.next = next := by
  induction records with
  | nil => exact ⟨empty next, .empty next, empty_holds next, rfl⟩
  | cons record rest ih =>
      have counted := room.counted
      rw [List.length_cons] at counted
      have lighter : load rest ≤ load (record :: rest) := load_mono (List.sublist_cons_self _ _)
      rcases ih ⟨Nat.le_trans lighter room.fits, by omega⟩ with ⟨leaf, built, holds, next_eq⟩
      have insertion := holds.insertIdx_yieldsWhere 0 record.1 record.2
      rcases insertion.yields ⟨Nat.zero_le _, room⟩ with ⟨changed, inserts, changedHolds, same⟩
      exact ⟨changed, .insert built inserts, changedHolds, same.trans next_eq⟩

theorem Holds.reads (holds : leaf.Holds records) {next : PageIndex} (next_eq : leaf.next = next) :
    leaf.Reads records next :=
  ⟨holds.entries_eq, next_eq⟩

theorem load_eq (records : List Record) :
    load records = 4 * slotsFor records.length + weigh recordSize records := by
  simp only [load, tableSize, slotSize]
  omega

/-- Whatever a leaf holds, its operations act on that. -/
theorem Holds.refines (holds : leaf.Holds records) : leaf.Refines records where
  entries_eq := holds.entries_eq
  used_eq := by rw [holds.used_eq, load_eq]
  used_le := by
    rw [holds.used_eq]
    exact holds.fits
  insert index key value := (holds.insertIdx_yieldsWhere index key value).mono
    fun _ ⟨changedHolds, next⟩ => changedHolds.reads next
  setValue index value := (holds.modify_yieldsWhere index value).mono
    fun _ ⟨changedHolds, next⟩ => changedHolds.reads next
  setEntry index key value := (holds.set_yieldsWhere index key value).mono
    fun _ ⟨changedHolds, next⟩ => changedHolds.reads next
  move built reads position first stop := by
    rcases built.exists_holds with ⟨others, targetHolds⟩
    have same := targetHolds.entries_eq.symm.trans reads
    cases same
    apply (holds.extract_yieldsWhere targetHolds position first stop).mono
    rintro ⟨kept, filled⟩ ⟨keptHolds, keptNext, filledHolds, filledNext, idle⟩
    exact ⟨keptHolds.reads keptNext, filledHolds.reads filledNext, idle⟩
  withNext next := (holds.withNext next).reads rfl
  overflowsWith keySize valueSize small := by
    have tables : 2 * tableSize (records.length + 1) = 4 * slotsFor (records.length + 1) := by
      simp only [tableSize, slotSize]
      omega
    rw [← tables] at small ⊢
    exact holds.overflowsWith_eq small
  overflowsWithValue := holds.overflowsWithValue_modify
  overflowsWithEntry := holds.overflowsWithEntry_set

/-- A leaf that the operations made is a list of records, and the operations on it act on the list.
They end with a fault just where a position lies outside of the list or the result has no room. -/
theorem built_refines_records (built : leaf.Built) : ∃ records, leaf.Refines records := by
  rcases built.exists_holds with ⟨records, holds⟩
  exact ⟨records, holds.refines⟩

/-- Twenty records, for which a leaf needs two batches of slots. -/
def twentyRecords : List Record :=
  (List.range 20).map fun number => ([UInt8.ofNat number], [1, 2])

/-- Seventeen of twenty records are moved between the two records of another leaf. -/
theorem built_refines_records_moved : ∃ kept filled : Leaf, kept.Built ∧ filled.Built ∧
    kept.entries = .ok [([0], [1, 2]), ([1], [1, 2]), ([19], [1, 2])] ∧
    filled.entries = .ok (([1], []) :: twentyRecords.extract 2 19 ++ [([20], [])]) ∧
    (∃ records, kept.Refines records) ∧ ∃ records, filled.Refines records := by
  have roomSource : Room twentyRecords := ⟨by decide, by decide⟩
  have roomTarget : Room [([1], []), ([20], [])] := ⟨by decide, by decide⟩
  rcases exists_built_of_room 0 roomSource with ⟨source, built, holds, _⟩
  rcases exists_built_of_room 0 roomTarget with ⟨target, targetBuilt, targetHolds, _⟩
  rcases (holds.extract_yieldsWhere targetHolds 1 2 19).yields
    ⟨⟨by decide, by decide⟩, fun _ => ⟨by decide, by decide, by decide⟩⟩ with
    ⟨⟨kept, filled⟩, moves, keptHolds, _, filledHolds, _⟩
  have keptBuilt : kept.Built := .kept built targetBuilt moves
  have filledBuilt : filled.Built := .filled built targetBuilt moves
  exact ⟨kept, filled, keptBuilt, filledBuilt, keptHolds.entries_eq, filledHolds.entries_eq,
    built_refines_records keptBuilt, built_refines_records filledBuilt⟩

end PagedMap.Leaf
