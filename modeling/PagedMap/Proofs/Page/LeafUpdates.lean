import PagedMap.Proofs.Page.Leaves

/-!
# Updates of leaves

What inserting, replacing and moving entries do to the lists that leaves hold, which of these changes
a leaf refuses, and where half of the bytes of a leaf lie.
-/

namespace PagedMap.Leaf

variable {leaf source target : Leaf} {front middle back : List Record}
  {record : Record} {body : Buffer leafCapacity}

theorem empty_holds (next : PageIndex) : (empty next).Holds [] where
  count_eq := rfl
  keys := ⟨rfl, rfl, by decide⟩
  values := ⟨rfl, rfl, by decide⟩
  head_eq := rfl
  tail_eq := rfl
  fits := by decide

theorem Holds.withNext {records : List Record} (holds : leaf.Holds records) (next : PageIndex) :
    { leaf with next }.Holds records :=
  { holds with }

/-! ## The two regions of a body -/

theorem footprint_le_append (front new back : List Bytes) :
    Region.footprint (front ++ back) ≤ Region.footprint (front ++ new ++ back) := by
  have grows : tableSize (front ++ back).length ≤ tableSize (front ++ new ++ back).length :=
    tableSize_mono (by simp only [List.length_append]; omega)
  simp only [Region.footprint, List.flatten_append, List.length_append] at grows ⊢
  omega

/-- Keys and values are put in one after the other, and neither gets in the way of the other. -/
theorem insertBoth_yields (new : List Record)
    (keys : Region.Holds .front body ((front ++ back).map Prod.fst))
    (values : Region.Holds .back body ((front ++ back).map Prod.snd))
    (fits : load (front ++ new ++ back) ≤ leafCapacity) :
    Yields
      (Region.insert .front body (front ++ back).length front.length
          (Region.pack .front (new.map Prod.fst)) (Region.endsFrom 0 (new.map Prod.fst)) >>=
        fun keyed => Region.insert .back keyed (front ++ back).length front.length
            (Region.pack .back (new.map Prod.snd)) (Region.endsFrom 0 (new.map Prod.snd)))
      fun body' => Region.Holds .front body' ((front ++ new ++ back).map Prod.fst) ∧
        Region.Holds .back body' ((front ++ new ++ back).map Prod.snd) := by
  have together := footprint_add_footprint (front ++ new ++ back)
  simp only [List.map_append] at keys values together ⊢
  have smaller := footprint_le_append (front.map Prod.snd) (new.map Prod.snd) (back.map Prod.snd)
  have insertKeys := keys.insert_yields (new.map Prod.fst) capacity_lt (by omega)
  rw [← List.map_append, List.length_map, List.length_map] at insertKeys
  apply Yields.bind insertKeys
  rintro keyed ⟨keyedKeys, keyedAgree⟩
  have keyedValues : Region.Holds .back keyed (front.map Prod.snd ++ back.map Prod.snd) :=
    Region.Holds.of_agreeBeyond .front values keyedAgree (by omega)
  have insertValues := keyedValues.insert_yields (new.map Prod.snd) capacity_lt (by omega)
  rw [← List.map_append, List.length_map, List.length_map] at insertValues
  apply insertValues.mono
  rintro valued ⟨valuedValues, valuedAgree⟩
  exact ⟨Region.Holds.of_agreeBeyond .back keyedKeys valuedAgree (by omega), valuedValues⟩

/-- Removing keys and values takes nothing away from the records before and behind them. -/
theorem removeBoth_yields
    (fits : load (front ++ middle ++ back) ≤ leafCapacity)
    (keys : Region.Holds .front body ((front ++ middle ++ back).map Prod.fst))
    (values : Region.Holds .back body ((front ++ middle ++ back).map Prod.snd)) :
    Yields
      (Region.remove .front body (front ++ middle ++ back).length front.length
          (front ++ middle).length >>=
        fun unkeyed => Region.remove .back unkeyed (front ++ middle ++ back).length front.length
          (front ++ middle).length)
      fun body' => Region.Holds .front body' ((front ++ back).map Prod.fst) ∧
        Region.Holds .back body' ((front ++ back).map Prod.snd) := by
  have together := footprint_add_footprint (front ++ middle ++ back)
  simp only [List.map_append] at keys values together ⊢
  have smaller := footprint_le_append (front.map Prod.fst) (middle.map Prod.fst)
    (back.map Prod.fst)
  have removeKeys := keys.remove_yields capacity_lt
  have counts : (front.map Prod.fst ++ middle.map Prod.fst ++ back.map Prod.fst).length =
      (front ++ middle ++ back).length := by simp
  have counts' : (front.map Prod.fst ++ middle.map Prod.fst).length = (front ++ middle).length := by
    simp
  rw [counts, counts', List.length_map] at removeKeys
  apply Yields.bind removeKeys
  rintro unkeyed ⟨unkeyedKeys, unkeyedAgree⟩
  have unkeyedValues : Region.Holds .back unkeyed
      (front.map Prod.snd ++ middle.map Prod.snd ++ back.map Prod.snd) :=
    Region.Holds.of_agreeBeyond .front values unkeyedAgree (by omega)
  have removeValues := unkeyedValues.remove_yields capacity_lt
  have counts : (front.map Prod.snd ++ middle.map Prod.snd ++ back.map Prod.snd).length =
      (front ++ middle ++ back).length := by simp
  have counts' : (front.map Prod.snd ++ middle.map Prod.snd).length = (front ++ middle).length := by
    simp
  rw [counts, counts', List.length_map] at removeValues
  apply removeValues.mono
  rintro unvalued ⟨unvaluedValues, unvaluedAgree⟩
  have unvaluedKeys : Region.Holds .front unvalued (front.map Prod.fst ++ back.map Prod.fst) :=
    Region.Holds.of_agreeBeyond .back unkeyedKeys unvaluedAgree (by omega)
  exact ⟨unvaluedKeys, unvaluedValues⟩

theorem load_replace (front back : List Record) (record new : Record) :
    load (front ++ new :: back) + recordSize record =
      load (front ++ record :: back) + recordSize new := by
  simp only [load, weigh_append, weigh_cons, List.length_append, List.length_cons]
  omega

theorem replaceKey_yields {key : Bytes}
    (keys : Region.Holds .front body ((front ++ record :: back).map Prod.fst))
    (values : Region.Holds .back body ((front ++ record :: back).map Prod.snd))
    (fitsBefore : load (front ++ record :: back) ≤ leafCapacity)
    (fits : load (front ++ (key, record.2) :: back) ≤ leafCapacity) :
    Yields (Region.replace .front body (front ++ record :: back).length front.length key)
      fun body' =>
        Region.Holds .front body' ((front ++ (key, record.2) :: back).map Prod.fst) ∧
        Region.Holds .back body' ((front ++ (key, record.2) :: back).map Prod.snd) := by
  have together := footprint_add_footprint (front ++ record :: back)
  have togetherAfter := footprint_add_footprint (front ++ (key, record.2) :: back)
  simp only [List.map_append, List.map_cons] at keys values together togetherAfter ⊢
  have replaces := keys.replace_beside values key capacity_lt (by omega) (by omega)
  simpa [Side.opposite] using replaces

theorem replaceValue_yields {value : Bytes}
    (keys : Region.Holds .front body ((front ++ record :: back).map Prod.fst))
    (values : Region.Holds .back body ((front ++ record :: back).map Prod.snd))
    (fitsBefore : load (front ++ record :: back) ≤ leafCapacity)
    (fits : load (front ++ (record.1, value) :: back) ≤ leafCapacity) :
    Yields (Region.replace .back body (front ++ record :: back).length front.length value)
      fun body' =>
        Region.Holds .front body' ((front ++ (record.1, value) :: back).map Prod.fst) ∧
        Region.Holds .back body' ((front ++ (record.1, value) :: back).map Prod.snd) := by
  have together := footprint_add_footprint (front ++ record :: back)
  have togetherAfter := footprint_add_footprint (front ++ (record.1, value) :: back)
  simp only [List.map_append, List.map_cons] at keys values together togetherAfter ⊢
  have replaces := values.replace_beside keys value capacity_lt (by omega) (by omega)
  simpa [Side.opposite, and_comm] using replaces

/-- What a leaf would use after a move is worked out right in machine words, growth of both tables
included. -/
theorem exceeds_moved {before behind : List Record}
    (fitsMiddle : load middle ≤ leafCapacity) (fewMiddle : middle.length < 256)
    (fits : load (before ++ behind) ≤ leafCapacity) (few : (before ++ behind).length < 256) :
    Word.exceeds (load (before ++ behind) + (Region.pack .front (middle.map Prod.fst)).length +
        (Region.pack .back (middle.map Prod.snd)).length)
      (2 * ((tableSize ((before ++ behind).length + middle.length) : Int) -
        tableSize (before ++ behind).length)) leafCapacity =
      .ok (decide (leafCapacity < load (before ++ middle ++ behind))) := by
  have sizes : (Region.pack .front (middle.map Prod.fst)).length +
      (Region.pack .back (middle.map Prod.snd)).length = weigh recordSize middle := by
    rw [Region.length_pack, Region.length_pack]
    have together := footprint_add_footprint middle
    simp only [Region.footprint, List.length_map, load] at together
    omega
  have afterMove : (before ++ middle ++ behind).length =
      (before ++ behind).length + middle.length := by
    simp only [List.length_append]
    omega
  have loadAfter : load (before ++ middle ++ behind) =
      2 * tableSize ((before ++ behind).length + middle.length) +
        (weigh recordSize (before ++ behind) + weigh recordSize middle) := by
    rw [load, afterMove]
    simp only [weigh_append]
    omega
  have table := tableSize_le ((before ++ behind).length + middle.length)
  have cap := capacity_lt
  simp only [slotLimit, slotSize, slotBatch] at cap table
  rw [loadAfter]
  simp only [load] at fits fitsMiddle ⊢
  rw [exceeds_eq (by simp only [Word.signedLimit]; omega) (by simp only [Word.signedLimit]; omega)
    (by simp only [Word.signedLimit]; omega)]
  apply congrArg Except.ok
  apply decide_eq_decide.mpr
  omega

namespace Holds

/-! ## Inserting a record -/

/-- The test before an insertion tells just if the leaf lacks room. The entry may have any size with
which the sums stay in a machine word. -/
theorem overflowsWith_record (holds : leaf.Holds (front ++ back)) (record : Record)
    (small : recordSize record < 0x1000000000000000) :
    leaf.overflowsWith record.1.length record.2.length =
      .ok (decide (leafCapacity < load (front ++ record :: back))) := by
  have load_eq : load (front ++ record :: back) = 2 * tableSize ((front ++ back).length + 1) +
      (weigh recordSize (front ++ back) + record.1.length + record.2.length) := by
    simp only [load, weigh_append, weigh_cons, recordSize, List.length_append, List.length_cons]
    rw [Nat.add_assoc front.length]
    omega
  have fits := holds.fits
  have few := holds.length_lt
  have table := tableSize_le ((front ++ back).length + 1)
  have cap := capacity_lt
  simp only [load, slotLimit, slotSize, slotBatch, recordSize] at fits cap table small
  rw [holds.overflowsWith_eq (by simp only [Word.signedLimit]; omega), load_eq]

/-- A record is inserted if it has room beside the others and the header can count it. -/
theorem insert_yieldsWhere (holds : leaf.Holds (front ++ back)) (record : Record) :
    YieldsWhere
      (load (front ++ record :: back) ≤ leafCapacity ∧ (front ++ record :: back).length < 256)
      (leaf.insert front.length record.1 record.2) fun changed =>
        changed.Holds (front ++ record :: back) ∧ changed.next = leaf.next := by
  have longer : (front ++ record :: back).length = (front ++ back).length + 1 := by
    simp only [List.length_append, List.length_cons]
    omega
  have sameList : front ++ [record] ++ back = front ++ record :: back := by simp
  by_cases small : recordSize record < 0x1000000000000000
  · rw [Leaf.insert, holds.count_eq, bind_of_eq_ok (Fault.require_of (by simp) _),
      bind_of_eq_ok (holds.overflowsWith_record record small)]
    apply YieldsWhere.require (by simp)
    intro fits
    have both := insertBoth_yields [record] holds.keys holds.values (by rwa [sameList])
    simp only [List.map_cons, List.map_nil, Region.pack_singleton, Region.endsFrom,
      Nat.zero_add, sameList] at both
    rw [← bind_assoc]
    apply YieldsWhere.bind both
    rintro body ⟨keys, values⟩
    rw [← longer]
    exact recount_yieldsWhere leaf.counters leaf.next keys values fits leaf.body
  · -- The sum of such sizes may pass for a small one, but the record itself has no room.
    have cap := capacity_lt
    have inside : recordSize record ≤ load (front ++ record :: back) := by
      simp only [load, weigh_append, weigh_cons]
      omega
    simp only [slotLimit] at cap
    apply YieldsWhere.of_only
    · rintro ⟨fits, _⟩
      omega
    · intro changed inserts
      simp only [Leaf.insert, bind_eq_ok_iff] at inserts
      rcases inserts with ⟨_, _, _, _, _, _, keyed, insertsKey, valued, insertsValue, _⟩
      have keyFits := Region.length_le_of_insert insertsKey
      have valueFits := Region.length_le_of_insert insertsValue
      simp only [recordSize] at small
      omega

theorem insert_yields (holds : leaf.Holds (front ++ back))
    (few : (front ++ record :: back).length < 256)
    (fits : load (front ++ record :: back) ≤ leafCapacity) :
    Yields (leaf.insert front.length record.1 record.2) fun changed =>
      changed.Holds (front ++ record :: back) ∧ changed.next = leaf.next :=
  (holds.insert_yieldsWhere record).yields ⟨fits, few⟩

/-! ## Replacing a value or a whole record -/

/-- The test before a value is set tells just if the leaf lacks room. It faults where the sum leaves
a machine word. -/
theorem overflowsWithValue_yieldsWhere (holds : leaf.Holds (front ++ record :: back))
    (value : Bytes) :
    YieldsWhere (load (front ++ (record.1, value) :: back) < Word.limit)
      (leaf.overflowsWithValue front.length value.length) fun exceeds =>
        exceeds = decide (leafCapacity < load (front ++ (record.1, value) :: back)) := by
  have replaced := load_replace front back record (record.1, value)
  have inside : recordSize record ≤ load (front ++ record :: back) := by
    simp only [load, weigh_append, weigh_cons]
    omega
  simp only [recordSize] at replaced inside
  rw [overflowsWithValue, bind_of_eq_ok holds.value_eq, holds.used_eq,
    bind_of_eq_ok (Word.sub_eq_ok (by omega))]
  have sum_eq : load (front ++ record :: back) - record.2.length + value.length =
      load (front ++ (record.1, value) :: back) := by
    omega
  rw [← sum_eq]
  apply YieldsWhere.map (Word.add_yieldsWhere _ _)
  rintro sum rfl
  rfl

theorem overflowsWithValue_eq (holds : leaf.Holds (front ++ record :: back)) (value : Bytes)
    (small : value.length < 0x1000000000000000) :
    leaf.overflowsWithValue front.length value.length =
      .ok (decide (leafCapacity < load (front ++ (record.1, value) :: back))) := by
  have replaced := load_replace front back record (record.1, value)
  have fits := holds.fits
  have cap := capacity_lt
  simp only [slotLimit, recordSize] at cap replaced
  rcases (holds.overflowsWithValue_yieldsWhere value).yields
    (by simp only [Word.limit]; omega) with ⟨_, answers, rfl⟩
  exact answers

/-- A change that is asked whether the new records exceed the capacity, and goes on if they do not, is
refused just where they do. -/
theorem checked_yieldsWhere {records : List Record} {answer : Except Fault Bool}
    {broken : Assertion} {rest : Except Fault Leaf} {property : Leaf → Prop}
    (few : records.length < 256)
    (answers : YieldsWhere (load records < Word.limit) answer fun exceeds =>
      exceeds = decide (leafCapacity < load records))
    (continues : load records ≤ leafCapacity → YieldsWhere (records.length < 256) rest property) :
    YieldsWhere (load records ≤ leafCapacity)
      (answer >>= fun exceeds => Fault.require (!exceeds) broken >>= fun _ => rest) property := by
  have cap := capacity_lt
  simp only [slotLimit] at cap
  have checked : YieldsWhere
      (load records < Word.limit ∧ load records ≤ leafCapacity ∧ records.length < 256)
      (answer >>= fun exceeds => Fault.require (!exceeds) broken >>= fun _ => rest) property := by
    apply answers.bind_both
    rintro _ _ rfl
    exact YieldsWhere.require (by simp) continues
  apply checked.congr
  constructor
  · exact fun fits => ⟨by simp only [Word.limit]; omega, fits, few⟩
  · exact fun granted => granted.2.1

/-- A value is replaced with its key left alone, as far as the leaf has room for the longer one. -/
theorem setValue_yieldsWhere (holds : leaf.Holds (front ++ record :: back)) (value : Bytes) :
    YieldsWhere (load (front ++ (record.1, value) :: back) ≤ leafCapacity)
      (leaf.setValue front.length value) fun changed =>
        changed.Holds (front ++ (record.1, value) :: back) ∧ changed.next = leaf.next := by
  have sameLength : (front ++ (record.1, value) :: back).length =
      (front ++ record :: back).length := by simp
  have few := holds.length_lt
  rw [← sameLength] at few
  apply checked_yieldsWhere few (holds.overflowsWithValue_yieldsWhere value)
  intro fits
  rw [holds.count_eq]
  apply YieldsWhere.bind (replaceValue_yields holds.keys holds.values holds.fits fits)
  rintro body ⟨keys, values⟩
  rw [← sameLength]
  exact recount_yieldsWhere leaf.counters leaf.next keys values fits leaf.body

theorem setValue_yields {value : Bytes} (holds : leaf.Holds (front ++ record :: back))
    (fits : load (front ++ (record.1, value) :: back) ≤ leafCapacity) :
    Yields (leaf.setValue front.length value) fun changed =>
      changed.Holds (front ++ (record.1, value) :: back) ∧ changed.next = leaf.next :=
  (holds.setValue_yieldsWhere value).yields fits

theorem entrySize_eq (holds : leaf.Holds (front ++ record :: back)) :
    leaf.entrySize front.length = .ok (recordSize record) := by
  rw [entrySize, bind_of_eq_ok holds.key_eq, bind_of_eq_ok holds.value_eq]
  rfl

/-- Whether another entry in the place of one would be too much is told from the records as they
would be then. -/
theorem overflowsWithEntry_yieldsWhere (holds : leaf.Holds (front ++ record :: back))
    (new : Record) :
    YieldsWhere (load (front ++ new :: back) < Word.limit)
      (leaf.overflowsWithEntry front.length new.1.length new.2.length) fun exceeds =>
        exceeds = decide (leafCapacity < load (front ++ new :: back)) := by
  have replaced := load_replace front back record new
  have inside : recordSize record ≤ load (front ++ record :: back) := by
    simp only [load, weigh_append, weigh_cons]
    omega
  have sum_eq : load (front ++ record :: back) - recordSize record + new.1.length + new.2.length =
      load (front ++ new :: back) := by
    simp only [recordSize] at *
    omega
  rw [overflowsWithEntry, bind_of_eq_ok holds.entrySize_eq, holds.used_eq,
    bind_of_eq_ok (Word.sub_eq_ok inside), ← sum_eq]
  generalize load (front ++ record :: back) - recordSize record = others
  have adding : YieldsWhere (others + new.1.length < Word.limit ∧
      others + new.1.length + new.2.length < Word.limit)
      (do
        let keyed ← Word.add others new.1.length
        return decide ((← Word.add keyed new.2.length) > leafCapacity))
      fun exceeds =>
        exceeds = decide (leafCapacity < others + new.1.length + new.2.length) := by
    apply YieldsWhere.bind_both (Word.add_yieldsWhere _ _)
    rintro _ keyed rfl
    apply YieldsWhere.map (Word.add_yieldsWhere _ _)
    rintro sum rfl
    rfl
  apply adding.congr
  omega

/-- A record is replaced where the new one has room. The region that shrinks makes way for the other
one, so that neither step exceeds the capacity. -/
theorem setEntry_yieldsWhere (holds : leaf.Holds (front ++ record :: back)) (new : Record) :
    YieldsWhere (load (front ++ new :: back) ≤ leafCapacity)
      (leaf.setEntry front.length new.1 new.2) fun changed =>
        changed.Holds (front ++ new :: back) ∧ changed.next = leaf.next := by
  have sameLength : (front ++ new :: back).length = (front ++ record :: back).length := by simp
  have few := holds.length_lt
  rw [← sameLength] at few
  have before := holds.fits
  apply checked_yieldsWhere few (holds.overflowsWithEntry_yieldsWhere new)
  intro fits
  rw [bind_of_eq_ok holds.key_eq, holds.count_eq]
  have settles : ∀ body, Region.Holds .front body ((front ++ new :: back).map Prod.fst) ∧
      Region.Holds .back body ((front ++ new :: back).map Prod.snd) →
      YieldsWhere ((front ++ new :: back).length < 256)
        (leaf.recount (front ++ record :: back).length body) fun changed =>
          changed.Holds (front ++ new :: back) ∧ changed.next = leaf.next := by
    rintro body ⟨keys, values⟩
    rw [← sameLength]
    exact recount_yieldsWhere leaf.counters leaf.next keys values fits leaf.body
  split
  next longer =>
    -- The key gets longer, so the old key with the new value has room if the new record has.
    have between : load (front ++ (record.1, new.2) :: back) ≤ leafCapacity := by
      have grows := load_replace front back (record.1, new.2) new
      simp only [recordSize] at grows
      omega
    apply YieldsWhere.bind (replaceValue_yields holds.keys holds.values before between)
    rintro valued ⟨keys, values⟩
    have keyed := replaceKey_yields keys values between fits
    rw [List.length_append, List.length_cons, ← List.length_cons (a := record),
      ← List.length_append] at keyed
    exact YieldsWhere.bind keyed settles
  next notLonger =>
    -- The key gets no longer, so the new key with the old value has room as the old record had.
    have between : load (front ++ (new.1, record.2) :: back) ≤ leafCapacity := by
      have shrinks := load_replace front back record (new.1, record.2)
      simp only [recordSize] at shrinks
      omega
    apply YieldsWhere.bind (replaceKey_yields holds.keys holds.values before between)
    rintro keyed ⟨keys, values⟩
    have valued := replaceValue_yields keys values between fits
    rw [List.length_append, List.length_cons, ← List.length_cons (a := record),
      ← List.length_append] at valued
    exact YieldsWhere.bind valued settles

/-! ## Moving records -/

/-- Records are moved where they have room and the header can count them; of no records that is
always so. -/
theorem move_yieldsWhere (holds : source.Holds (front ++ middle ++ back))
    (before behind : List Record) (targetHolds : target.Holds (before ++ behind)) :
    YieldsWhere
      (load (before ++ middle ++ behind) ≤ leafCapacity ∧
        (before ++ middle ++ behind).length < 256)
      (source.move target before.length front.length (front ++ middle).length)
      fun (kept, filled) => kept.Holds (front ++ back) ∧ kept.next = source.next ∧
        filled.Holds (before ++ middle ++ behind) ∧ filled.next = target.next := by
  rw [move, holds.count_eq, targetHolds.count_eq,
    bind_of_eq_ok (Fault.require_of (by simp) _)]
  by_cases none : middle = []
  · subst none
    rw [if_pos (by simp)]
    rw [List.append_nil] at holds ⊢
    exact YieldsWhere.of_yields ⟨targetHolds.fits, targetHolds.length_lt⟩
      (Yields.pure ⟨holds, rfl, targetHolds, rfl⟩)
  have some : 0 < middle.length := List.length_pos_iff.mpr none
  rw [if_neg (by simp; omega), bind_of_eq_ok (Fault.require_of (by simp) _)]
  have moved : (front ++ middle).length - front.length = middle.length := by simp
  have afterMove : (before ++ behind).length + middle.length =
      (before ++ middle ++ behind).length := by
    simp only [List.length_append]
    omega
  have left : (front ++ middle ++ back).length - middle.length = (front ++ back).length := by
    simp only [List.length_append]
    omega
  have keys := holds.keys
  have values := holds.values
  simp only [List.map_append] at keys values
  have keyBlob := keys.items_eq capacity_lt
  have valueBlob := values.items_eq capacity_lt
  have keyEnds := keys.endsWithin_eq capacity_lt
  have valueEnds := values.endsWithin_eq capacity_lt
  simp only [← List.map_append, List.length_map] at keyBlob valueBlob keyEnds valueEnds
  have fewSource := holds.length_lt
  have fewTarget := targetHolds.length_lt
  have fitsMiddle : load middle ≤ leafCapacity :=
    Nat.le_trans (load_mono (by simp)) holds.fits
  have fewMiddle : middle.length < 256 := by
    simp only [List.length_append] at fewSource
    omega
  rw [bind_of_eq_ok keyBlob, bind_of_eq_ok valueBlob, moved,
    bind_of_eq_ok (tableGrowth_eq _ (by omega)), targetHolds.used_eq,
    bind_of_eq_ok (exceeds_moved fitsMiddle fewMiddle targetHolds.fits fewTarget)]
  apply YieldsWhere.require (by simp)
  intro fits
  rw [bind_of_eq_ok keyEnds, bind_of_eq_ok valueEnds, ← bind_assoc]
  apply YieldsWhere.bind (insertBoth_yields middle targetHolds.keys targetHolds.values fits)
  rintro body ⟨filledKeys, filledValues⟩
  rw [afterMove, ← and_true (_ < 256)]
  -- Only the count in the header of the target can still refuse.
  apply YieldsWhere.bind_both
    (recount_yieldsWhere target.counters target.next filledKeys filledValues fits target.body)
  rintro _ filled ⟨filledHolds, filledNext⟩
  have removal := removeBoth_yields holds.fits holds.keys holds.values
  rcases removal with ⟨remaining, removes, keptKeys, keptValues⟩
  rw [← bind_assoc, bind_of_eq_ok removes, left]
  have shorter : (front ++ back).length < 256 := by
    simp only [List.length_append] at fewSource ⊢
    omega
  have lighter : load (front ++ back) ≤ leafCapacity :=
    Nat.le_trans (load_mono (by simp)) holds.fits
  rcases (recount_yieldsWhere source.counters source.next keptKeys keptValues lighter
    source.body).yields shorter with ⟨kept, recounts, keptHolds, keptNext⟩
  rw [bind_of_eq_ok recounts]
  exact YieldsWhere.of_yields trivial (Yields.pure ⟨keptHolds, keptNext, filledHolds, filledNext⟩)

/-- The midpoint is the first position before which lie half of the bytes of the records. -/
theorem midpoint_yields {records : List Record} (holds : leaf.Holds records) :
    Yields leaf.midpoint fun half => half ≤ records.length ∧
      weigh recordSize records ≤ 2 * weigh recordSize (records.take half) ∧
      (0 < half →
        2 * weigh recordSize (records.take (half - 1)) < weigh recordSize records) := by
  have sizes : (List.range leaf.count).mapM leaf.entrySize = .ok (records.map recordSize) := by
    apply mapM_eq_ok (by simp [holds.count_eq])
    intro index inside _
    rw [List.length_range, holds.count_eq] at inside
    rw [List.getElem_range, holds.entrySize_getElem inside, List.getElem_map]
  have total : (records.map recordSize).foldl (· + ·) 0 = weigh recordSize records :=
    foldl_add_eq_weigh recordSize records
  rw [midpoint, bind_of_eq_ok sizes, total, List.length_map]
  apply halfway_yields
  · intro index inside
    simp [inside]
  · omega

end Holds

end PagedMap.Leaf
