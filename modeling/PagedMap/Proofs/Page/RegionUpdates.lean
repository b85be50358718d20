import PagedMap.Proofs.Page.Regions

/-!
# Updates of regions

What inserting, removing and replacing items do to the list that a side of a buffer holds, and to
the bytes beyond it.
-/

namespace PagedMap.Region

variable {size : Nat} {side : Side} {buffer : Buffer size}

open Buffer (AgreeBeyond)

theorem exists_writeEnds_eq_ok (side : Side) (buffer : Buffer size) (ends : List Nat)
    (fits : slotSize * ends.length ≤ size) :
    ∃ written, writeEnds side buffer ends = .ok written ∧
      written.seen side = slots side ends ++ (buffer.seen side).drop (slotSize * ends.length) := by
  have length_table : (toTable (side.arrange ends)).length = slotSize * ends.length := by
    rw [← arrange_slots, Side.length_arrange, length_slots]
  rcases buffer.exists_write_eq_ok side 0 (toTable (side.arrange ends)) (by omega) with
    ⟨written, writes, seen_eq⟩
  refine ⟨written, writes, ?_⟩
  rw [seen_eq, length_table, ← arrange_slots, Side.arrange_arrange]
  simp

theorem exists_writePacked_eq_ok (side : Side) (buffer : Buffer size) (count start : Nat)
    (data : Bytes)
    (fits : tableSize count + start + data.length ≤ size) :
    ∃ written, writePacked side buffer count start data = .ok written ∧
      written.seen side = (buffer.seen side).take (tableSize count + start) ++ side.arrange data ++
        (buffer.seen side).drop (tableSize count + start + data.length) :=
  buffer.exists_write_eq_ok side _ data fits

theorem drop_of_replaced {α : Type} {list start written : List α} {length past : Nat}
    (written_eq : written = start ++ list.drop length) (sameLength : start.length = length)
    (le : length ≤ past) : written.drop past = list.drop past := by
  have split : past = length + (past - length) := by omega
  rw [written_eq, split, ← List.drop_drop, List.drop_left' sameLength, List.drop_drop]

/-- Once the items are packed where they belong, writing their ends makes the region hold them. -/
theorem writeEnds_yields (buffer : Buffer size) {items : List Bytes} {ends : List Nat}
    (distance : Nat)
    (fits : footprint items ≤ size) (inside : tableSize items.length ≤ distance)
    (packed : ((buffer.seen side).drop (tableSize items.length)).take items.flatten.length =
      spread side items)
    (sameSlots : slots side ends = slots side (endsFrom 0 items))
    (sameLength : ends.length = items.length) :
    Yields (writeEnds side buffer ends) fun written =>
      Holds side written items ∧ AgreeBeyond side distance buffer written := by
  have inTable := slots_le_tableSize items.length
  have bounded := fits
  simp only [footprint] at bounded
  rcases exists_writeEnds_eq_ok side buffer ends (by rw [sameLength]; omega) with
    ⟨written, writes, seen_eq⟩
  rw [sameSlots, sameLength] at seen_eq
  refine ⟨written, writes, ⟨?_, ?_, fits⟩, drop_of_replaced seen_eq (by simp) (by omega)⟩
  · rw [seen_eq, List.take_left' (by simp)]
  · rw [drop_of_replaced seen_eq (by simp) inTable, packed]

theorem take_drop_of_written {list data : Bytes} {base start length : Nat} {before : Bytes}
    {written : Bytes} (enough : base + start ≤ list.length)
    (known : (list.drop base).take start = before)
    (seen_eq : written = list.take (base + start) ++ data ++ list.drop length) :
    (written.drop base).take (start + data.length) = before ++ data := by
  have cut : (list.take (base + start)).drop base = before := by
    rw [List.drop_take, Nat.add_sub_cancel_left, known]
  have length_before : before.length = start := by
    rw [← known, List.length_take, List.length_drop]
    omega
  rw [seen_eq, List.append_assoc, List.drop_append_of_le_length (by simp; omega), cut,
    ← List.append_assoc, List.take_left' (by simp; omega)]

theorem ofNat_add_slotLimit (value : Nat) :
    Bytes.ofNat slotSize (value + slotLimit) = Bytes.ofNat slotSize value := by
  simp only [Bytes.ofNat, slotSize, slotLimit, List.cons.injEq, and_true]
  constructor
  · apply UInt8.toNat_inj.mp
    simp only [UInt8.toNat_ofNat']
    omega
  · apply UInt8.toNat_inj.mp
    simp only [UInt8.toNat_ofNat']
    omega

/-- The slots that a replacement writes, though it computes them modulo the size of a slot. -/
theorem slots_replaced (side : Side) (front back : List Bytes) (old item : Bytes) :
    slots side ((endsFrom 0 (front ++ old :: back)).take front.length ++
      ((endsFrom 0 (front ++ old :: back)).drop front.length).map fun last =>
        last + (front.flatten.length + item.length) + slotLimit -
          (front.flatten.length + old.length)) =
    slots side (endsFrom 0 (front ++ item :: back)) := by
  have moved (distance : Nat) :
      Bytes.ofNat slotSize (front.flatten.length + old.length + distance +
        (front.flatten.length + item.length) + slotLimit - (front.flatten.length + old.length)) =
      Bytes.ofNat slotSize (front.flatten.length + item.length + distance) := by
    rw [← ofNat_add_slotLimit (front.flatten.length + item.length + distance)]
    congr 1
    omega
  have first := moved 0
  simp only [Nat.add_zero] at first
  rw [endsFrom_append, endsFrom_append, List.take_left' (by simp), List.drop_left' (by simp)]
  simp only [Nat.zero_add, endsFrom]
  rw [← map_add_endsFrom (front.flatten.length + old.length),
    ← map_add_endsFrom (front.flatten.length + item.length)]
  simp only [slots, List.flatMap_append, List.flatMap_map, List.map_cons, List.flatMap_cons,
    first, moved]

theorem mapM_sub_removed (front middle back : List Bytes) :
    ((endsFrom 0 (front ++ middle ++ back)).drop (front ++ middle).length).mapM
      (fun last => Word.sub last middle.flatten.length) =
        .ok (endsFrom front.flatten.length back) := by
  rw [endsFrom_append, List.drop_left' (by simp), ← mapM_sub_endsFrom, List.flatten_append,
    List.length_append, Nat.zero_add]

theorem endsFrom_removed (front middle back : List Bytes) :
    (endsFrom 0 (front ++ middle ++ back)).take front.length ++
      endsFrom front.flatten.length back = endsFrom 0 (front ++ back) := by
  rw [List.append_assoc, endsFrom_append, List.take_left' (by simp), endsFrom_append,
    Nat.zero_add]

/-- When the table of a region has shrunk, its items are moved up behind it. -/
theorem resettle_yields (buffer : Buffer size) {items : List Bytes} {oldCount : Nat}
    (inside : tableSize items.length ≤ tableSize oldCount)
    (fits : tableSize oldCount + items.flatten.length ≤ size)
    (table : (buffer.seen side).take (slotSize * items.length) = slots side (endsFrom 0 items))
    (packed : ((buffer.seen side).drop (tableSize oldCount)).take items.flatten.length =
      spread side items) :
    Yields (resettle side buffer oldCount items.length items.flatten.length) fun written =>
      Holds side written items ∧
        AgreeBeyond side (tableSize oldCount + items.flatten.length) buffer written := by
  have inTable := slots_le_tableSize items.length
  rw [resettle]
  split
  next same =>
    apply Yields.pure
    rw [same] at packed
    refine ⟨⟨table, packed, ?_⟩, AgreeBeyond.refl ..⟩
    simp only [footprint]
    omega
  next =>
    -- The table got smaller, so the items are packed anew right behind it.
    have read : Region.packed side buffer oldCount 0 items.flatten.length =
        .ok (pack side items) := by
      rw [Region.packed, bind_of_eq_ok (Fault.within_of (by simp)), Buffer.read_eq_ok (by omega),
        Nat.add_zero, Nat.sub_zero, packed, arrange_spread]
    rcases exists_writePacked_eq_ok side buffer items.length 0 (pack side items)
      (by rw [length_pack]; omega) with
      ⟨written, writes, seen_eq⟩
    rw [bind_of_eq_ok read, writes]
    have agree := Buffer.agreeBeyond_of_seen_eq (by rw [length_pack]; omega) seen_eq
    rw [arrange_pack] at seen_eq
    have moved := take_drop_of_written (by simp only [Buffer.length_seen]; omega) rfl seen_eq
    refine Yields.ok ⟨⟨?_, ?_, ?_⟩, agree.mono (by rw [length_pack]; omega)⟩
    · rw [← table, seen_eq, List.append_assoc, List.take_append_of_le_length, List.take_take,
        Nat.min_eq_left (by omega)]
      simp
      omega
    · simpa using moved
    · simp only [footprint]
      omega

theorem length_le_of_insert {count position : Nat} {blob : Bytes} {ends : List Nat}
    {written : Buffer size}
    (inserts : Region.insert side buffer count position blob ends = .ok written) :
    blob.length ≤ size := by
  simp only [Region.insert, bind_eq_ok_iff, writePacked] at inserts
  rcases inserts with ⟨_, _, _, _, _, _, _, _, near, _, far, _, moved, writes, _⟩
  have fits := Buffer.fits_of_write writes
  simp only [Side.length_join] at fits
  omega

namespace Holds

variable {front middle back : List Bytes} {item old : Bytes}

/-- Items are inserted by moving those behind them outwards, and the ends of these are counted
anew. -/
theorem insert_yields (holds : Holds side buffer (front ++ back)) (new : List Bytes)
    (small : size < slotLimit)
    (fits : footprint (front ++ new ++ back) ≤ size) :
    Yields
      (Region.insert side buffer (front ++ back).length front.length (pack side new)
        (endsFrom 0 new))
      fun written => Holds side written (front ++ new ++ back) ∧
        AgreeBeyond side (footprint (front ++ new ++ back)) buffer written := by
  have bounded := fits
  simp only [footprint] at bounded
  have sameCount : (front ++ back).length + (endsFrom 0 new).length =
      (front ++ new ++ back).length := by
    simp only [List.length_append, length_endsFrom]
    omega
  rw [Region.insert, bind_of_eq_ok (Fault.within_of (by simp)),
    bind_of_eq_ok (holds.itemEnds_eq small), bind_of_eq_ok (holds.itemStart_eq small),
    bind_of_eq_ok (holds.itemStart_length small), bind_of_eq_ok holds.packed_prefix_eq,
    bind_of_eq_ok holds.packed_suffix_eq, sameCount]
  -- The new items are packed between the old ones, and the table may have grown.
  have joined : side.arrange
      (side.join (side.join (pack side front) (pack side new)) (pack side back)) =
        spread side (front ++ new ++ back) := by
    simp only [Side.arrange_join, arrange_pack, spread_append]
  have length_joined :
      (side.join (side.join (pack side front) (pack side new)) (pack side back)).length =
        (front ++ new ++ back).flatten.length := by
    rw [← Side.length_arrange side, joined, length_spread]
  rcases exists_writePacked_eq_ok side buffer (front ++ new ++ back).length 0
    (side.join (side.join (pack side front) (pack side new)) (pack side back)) (by omega) with
    ⟨moved, writes, seen_eq⟩
  rw [bind_of_eq_ok writes]
  have agree := Buffer.agreeBeyond_of_seen_eq (by omega) seen_eq
  rw [length_joined, Nat.add_zero] at agree
  rw [joined] at seen_eq
  have packed := take_drop_of_written (by simp only [Buffer.length_seen]; omega) rfl seen_eq
  -- The ends in front stay, the new ones start where the front ends, and those behind move on.
  have sameEnds :
      (endsFrom 0 (front ++ back)).take front.length ++
          (endsFrom 0 new).map (front.flatten.length + ·) ++
        ((endsFrom 0 (front ++ back)).drop front.length).map (· + (pack side new).length) =
      endsFrom 0 (front ++ new ++ back) := by
    rw [endsFrom_append, List.take_left' (by simp), List.drop_left' (by simp), ← endsFrom_add,
      endsFrom_append, endsFrom_append, length_pack, Nat.zero_add, Nat.zero_add, map_add_endsFrom,
      List.flatten_append, List.length_append]
  rw [sameEnds]
  have settles := writeEnds_yields moved (footprint (front ++ new ++ back)) fits
    (by simp [footprint])
    (by simpa using packed) rfl (by simp)
  apply settles.mono
  rintro written ⟨result, later⟩
  exact ⟨result, AgreeBeyond.trans agree later⟩

/-- Items are removed by moving those behind them inwards. The table may shrink by a batch of slots
then. -/
theorem remove_yields (holds : Holds side buffer (front ++ middle ++ back))
    (small : size < slotLimit) :
    Yields
      (Region.remove side buffer (front ++ middle ++ back).length front.length
        (front ++ middle).length)
      fun written => Holds side written (front ++ back) ∧
        AgreeBeyond side (footprint (front ++ middle ++ back)) buffer written := by
  by_cases empty : middle = []
  · subst empty
    rw [Region.remove, if_pos (by simp)]
    apply Yields.pure
    exact ⟨by simpa using holds, AgreeBeyond.refl ..⟩
  have positive : 0 < middle.length := List.length_pos_iff.mpr empty
  have total : (front ++ middle ++ back).flatten.length =
      front.flatten.length + middle.flatten.length + back.flatten.length := by
    simp only [List.flatten_append, List.length_append]
  have left : (front ++ back).flatten.length = front.flatten.length + back.flatten.length := by
    simp only [List.flatten_append, List.length_append]
  have bounded := holds.fits
  rw [footprint, total] at bounded
  have prefixHolds : Holds side buffer (front ++ (middle ++ back)) := by
    rwa [← List.append_assoc]
  have far := holds.packed_suffix_eq
  have removedSize : (front ++ middle).flatten.length - front.flatten.length =
      middle.flatten.length := by simp
  have leftSize : (front ++ middle ++ back).flatten.length - middle.flatten.length =
      (front ++ back).flatten.length := by
    omega
  have leftCount : (front ++ middle ++ back).length - ((front ++ middle).length - front.length) =
      (front ++ back).length := by
    simp only [List.length_append]
    omega
  rcases exists_writePacked_eq_ok side buffer (front ++ middle ++ back).length
    front.flatten.length (pack side back) (by rw [length_pack]; omega) with
    ⟨closed, writes, seen_eq⟩
  rw [Region.remove, if_neg (by simp only [List.length_append]; omega),
    bind_of_eq_ok (Fault.within_of (by simp)), bind_of_eq_ok (holds.itemEnds_eq small),
    bind_of_eq_ok (prefixHolds.itemStart_eq small), bind_of_eq_ok (holds.itemStart_eq small),
    bind_of_eq_ok (holds.itemStart_length small), bind_of_eq_ok (Word.sub_eq_ok (by simp)),
    bind_of_eq_ok far, bind_of_eq_ok writes, removedSize,
    bind_of_eq_ok (mapM_sub_removed front middle back), endsFrom_removed, leftCount,
    Word.sub_eq_ok (by omega), leftSize]
  have fewer : tableSize (front ++ back).length ≤ tableSize (front ++ middle ++ back).length :=
    tableSize_mono (by simp only [List.length_append]; omega)
  have inTable := slots_le_tableSize (front ++ back).length
  have agreeClosed := Buffer.agreeBeyond_of_seen_eq (by rw [length_pack]; omega) seen_eq
  -- The gap is closed, but the items still lie behind a table for as many as before.
  have near := take_drop_of_prefix holds.packed 0 front.flatten.length
    (by omega)
  rw [List.drop_zero, List.drop_zero, List.append_assoc, spread_append,
    List.take_left' (by simp), ← List.append_assoc] at near
  rw [arrange_pack] at seen_eq
  have packed := take_drop_of_written (by rw [Buffer.length_seen]; omega) near seen_eq
  rw [length_spread, ← spread_append, ← left] at packed
  rcases exists_writeEnds_eq_ok side closed (endsFrom 0 (front ++ back))
    (by rw [length_endsFrom]; omega) with
    ⟨listed, lists, listed_eq⟩
  rw [bind_of_eq_ok lists, bind_of_eq_ok rfl]
  rw [length_endsFrom] at listed_eq
  have agreeListed : AgreeBeyond side (footprint (front ++ middle ++ back)) closed listed :=
    drop_of_replaced listed_eq (by simp) (by rw [footprint]; omega)
  -- Fewer slots may do with a smaller table; then the items move towards the side.
  have settles := resettle_yields listed fewer (by omega)
    (by rw [listed_eq, List.take_left' (by simp)])
    (by rw [drop_of_replaced listed_eq (by simp) (by omega), packed])
  apply settles.mono
  rintro written ⟨result, agreeSettled⟩
  refine ⟨result, ?_⟩
  apply AgreeBeyond.trans (agreeClosed.mono (by rw [length_pack, footprint]; omega))
  apply AgreeBeyond.trans agreeListed
  exact agreeSettled.mono (by rw [footprint]; omega)

/-- An item is replaced by one of any length. Only the items behind it are moved. -/
theorem replace_yields (holds : Holds side buffer (front ++ old :: back)) (item : Bytes)
    (small : size < slotLimit) (fits : footprint (front ++ item :: back) ≤ size) :
    Yields (Region.replace side buffer (front ++ old :: back).length front.length item)
      fun written => Holds side written (front ++ item :: back) ∧
        AgreeBeyond side
          (max (footprint (front ++ old :: back)) (footprint (front ++ item :: back)))
          buffer written := by
  have bounded := fits
  have bounded' := holds.fits
  have sameCount : (front ++ item :: back).length = (front ++ old :: back).length := by simp
  simp only [footprint, sameCount] at bounded bounded'
  -- What lies behind the old item is packed behind the new one.
  have asSuffix : Holds side buffer ((front ++ [old]) ++ back) := by simpa using holds
  have far := asSuffix.packed_suffix_eq
  have lastEnd : (front ++ [old]).flatten.length = front.flatten.length + old.length := by simp
  have sameList : front ++ [old] ++ back = front ++ old :: back := by simp
  rw [lastEnd, sameList] at far
  rw [Region.replace, bind_of_eq_ok (holds.itemEnds_eq small),
    bind_of_eq_ok (holds.itemStart_eq small), bind_of_eq_ok (holds.itemEnd_eq small),
    bind_of_eq_ok (holds.itemStart_length small), bind_of_eq_ok far]
  have joined : side.arrange (side.join item (pack side back)) = spread side (item :: back) := by
    rw [Side.arrange_join, arrange_pack]
    rfl
  have length_joined : (side.join item (pack side back)).length =
      (item :: back).flatten.length := by
    rw [← Side.length_arrange side, joined, length_spread]
  have total : (front ++ item :: back).flatten.length =
      front.flatten.length + (item :: back).flatten.length := by simp
  rcases exists_writePacked_eq_ok side buffer (front ++ old :: back).length front.flatten.length
    (side.join item (pack side back)) (by omega) with ⟨moved, writes, seen_eq⟩
  rw [bind_of_eq_ok writes]
  have agree : AgreeBeyond side
      (max (footprint (front ++ old :: back)) (footprint (front ++ item :: back)))
      buffer moved := by
    apply (Buffer.agreeBeyond_of_seen_eq (by omega) seen_eq).mono
    simp only [footprint, sameCount]
    omega
  rw [joined] at seen_eq
  have near : ((buffer.seen side).drop (tableSize (front ++ old :: back).length)).take
      front.flatten.length = spread side front := by
    have within := take_drop_of_prefix holds.packed 0 front.flatten.length
      (by simp)
    simpa [spread_append, List.take_left'] using within
  have packed := take_drop_of_written (by simp only [Buffer.length_seen]; omega) near seen_eq
  rw [length_spread, ← total, ← spread_append] at packed
  have sameSlots := slots_replaced side front back old item
  have settles := writeEnds_yields moved
    (max (footprint (front ++ old :: back)) (footprint (front ++ item :: back)))
    fits (by simp only [footprint]; omega) (by rw [sameCount]; exact packed) sameSlots (by simp)
  apply settles.mono
  rintro written ⟨result, later⟩
  exact ⟨result, AgreeBeyond.trans agree later⟩

/-- An item is replaced without touching what the other side holds, if both have room before and
after. -/
theorem replace_beside (holds : Holds side buffer (front ++ old :: back)) {others : List Bytes}
    (opposite : Holds side.opposite buffer others) (item : Bytes) (small : size < slotLimit)
    (apart : footprint (front ++ old :: back) + footprint others ≤ size)
    (fits : footprint (front ++ item :: back) + footprint others ≤ size) :
    Yields (Region.replace side buffer (front ++ old :: back).length front.length item)
      fun written => Holds side written (front ++ item :: back) ∧
        Holds side.opposite written others := by
  apply (holds.replace_yields item small (by omega)).mono
  rintro written ⟨result, agree⟩
  exact ⟨result, opposite.of_agreeBeyond side agree (by omega)⟩

end Holds

end PagedMap.Region
