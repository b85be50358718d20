import PagedMap.Proofs.Page.RegionUpdates

/-!
# Regions as lists of items

A region reads as a list if its items, read one after the other, are those of the list. That is so
just if the side of the buffer holds the list, so that nothing else needs to be known of a region.
Here the operations are described by what they do to the list that is read, with positions counted
in the list, and by the bytes that they leave alone: all those that the region used neither before
nor afterwards. Therefore changes to the regions at the two sides of a buffer never meet, as long as
there is room for both.
-/

namespace PagedMap

namespace Region

variable {size : Nat} {side : Side} {buffer : Buffer size} {count : Nat}
  {items front middle back : List Bytes} {item : Bytes}

open Buffer (AgreeBeyond)

/-! ## What is read is held -/

/-- A region with a count reads as a list: there are that many items, and each is read in its
place. -/
structure Reads (side : Side) (buffer : Buffer size) (count : Nat) (items : List Bytes) : Prop where
  length_eq : items.length = count
  item_eq : ∀ index (inside : index < items.length),
    Region.item side buffer count index = .ok items[index]

theorem Holds.reads (holds : Holds side buffer items) (small : size < slotLimit) :
    Reads side buffer items.length items where
  length_eq := rfl
  item_eq index inside := by
    rcases exists_split_of_lt inside with ⟨front, back, items_eq, rfl⟩
    have split := holds
    rw [items_eq] at split
    have read := split.item_eq small
    rwa [← items_eq] at read

/-- The first items of a region lie where they do in a region that holds them. -/
structure Lies (side : Side) (buffer : Buffer size) (count : Nat) (items : List Bytes) : Prop where
  start_eq : itemStart side buffer items.length = .ok items.flatten.length
  table : (buffer.seen side).take (slotSize * items.length) = slots side (endsFrom 0 items)
  packed : ((buffer.seen side).drop (tableSize count)).take items.flatten.length =
    spread side items

theorem Lies.nil (side : Side) (buffer : Buffer size) (count : Nat) : Lies side buffer count [] :=
  ⟨rfl, rfl, rfl⟩

theorem slot_of_itemEnd {index last : Nat} (reads : itemEnd side buffer index = .ok last) :
    ((buffer.seen side).drop (slotSize * index)).take slotSize =
      side.arrange (Bytes.ofNat slotSize last) := by
  rw [itemEnd, bind_eq_ok_iff] at reads
  rcases reads with ⟨bytes, read, ends⟩
  cases ends
  rcases Buffer.of_read read with ⟨fits, slot⟩
  have length_bytes : bytes.length = slotSize := by
    rw [← Side.length_arrange side, ← slot, List.length_take, List.length_drop,
      Buffer.length_seen]
    omega
  rw [slot, ← length_bytes, Bytes.ofNat_toNat]

/-- The item behind the first ones lies where it does in a region that holds it too, and within the
buffer. -/
theorem Lies.concat (lies : Lies side buffer count front)
    (reads : Region.item side buffer count front.length = .ok item) :
    Lies side buffer count (front ++ [item]) ∧
      tableSize count + (front ++ [item]).flatten.length ≤ size := by
  rw [Region.item, Region.items, bind_of_eq_ok lies.start_eq, bind_eq_ok_iff] at reads
  rcases reads with ⟨last, ends, packs⟩
  rw [Region.packed, bind_eq_ok_iff] at packs
  rcases packs with ⟨_, ordered, read⟩
  have start_le : front.flatten.length ≤ last := by
    rw [Fault.within] at ordered
    split at ordered
    next le => exact of_decide_eq_true le
    next => cases ordered
  rcases Buffer.of_read read with ⟨fits, seen_eq⟩
  have length_item : last - front.flatten.length = item.length := by
    rw [← Side.length_arrange side item, ← seen_eq, List.length_take, List.length_drop,
      Buffer.length_seen]
    omega
  have last_eq : last = front.flatten.length + item.length := by omega
  subst last_eq
  have total : (front ++ [item]).flatten.length = front.flatten.length + item.length := by simp
  refine ⟨⟨?_, ?_, ?_⟩, by omega⟩
  · rw [List.length_append, total]
    exact ends
  · rw [List.length_append, List.length_singleton, Nat.mul_succ, List.take_add, lies.table,
      slot_of_itemEnd ends, endsFrom_append, Nat.zero_add]
    simp [slots, endsFrom]
  · rw [total, List.take_add, lies.packed, List.drop_drop, spread_append, ← length_item, seen_eq]
    simp [spread]

/-- The first items of a region that reads as a list lie where they should, and within the
buffer. -/
theorem Reads.lies (reads : Reads side buffer count items) {index : Nat}
    (inside : index ≤ items.length) :
    Lies side buffer count (items.take index) ∧
      (0 < index → tableSize count + (items.take index).flatten.length ≤ size) := by
  induction index with
  | zero =>
      -- Before an item is read, nothing tells that the buffer has room for the table.
      exact ⟨Lies.nil side buffer count, fun positive => absurd positive (Nat.lt_irrefl 0)⟩
  | succ index ih =>
      have read := reads.item_eq index inside
      have length_front : (items.take index).length = index := by
        rw [List.length_take]
        omega
      rw [List.take_succ_eq_append_getElem inside]
      have next := (ih (by omega)).1.concat (by rw [length_front]; exact read)
      exact ⟨next.1, fun _ => next.2⟩

/-- A side of a buffer whose items can be read holds them. -/
theorem Reads.holds (reads : Reads side buffer count items) : Holds side buffer items := by
  rcases reads.lies (Nat.le_refl _) with ⟨lies, within⟩
  rw [List.take_length] at lies within
  rcases reads with ⟨rfl, _⟩
  refine ⟨lies.table, lies.packed, ?_⟩
  by_cases empty : items = []
  · subst empty
    exact Nat.zero_le size
  · exact within (List.length_pos_iff.mpr empty)

theorem footprint_eq (items : List Bytes) :
    footprint items = 2 * slotsFor items.length + items.flatten.length := by
  rw [footprint, tableSize, slotSize, Nat.mul_comm]

theorem footprint_mono {fewer more : List Bytes} (sublist : fewer.Sublist more) :
    footprint fewer ≤ footprint more := by
  have packed (items : List Bytes) : items.flatten.length = weigh List.length items := by
    induction items with
    | nil => rfl
    | cons item rest ih => simp [ih]
  have lengths := tableSize_mono sublist.length_le
  have weights := weigh_le_of_sublist List.length sublist
  simp only [footprint, packed]
  omega

/-! ## Changes -/

/-- A change of the items of a region. -/
inductive Change where
  | insert (position : Nat) (new : List Bytes)
  | remove (first stop : Nat)
  | replace (index : Nat) (item : Bytes)

namespace Change

/-- What a change makes of a list. -/
def on (items : List Bytes) : Change → List Bytes
  | insert position new => items.take position ++ new ++ items.drop position
  | remove first stop => items.take first ++ items.drop (max first stop)
  | replace index item => items.set index item

def recount (count : Nat) : Change → Nat
  | insert _ new => count + new.length
  | remove first stop => count - (stop - first)
  | replace .. => count

/-- The positions of a change lie in a list. -/
def Inside (items : List Bytes) : Change → Prop
  | insert position _ => position ≤ items.length
  | remove first stop => first < stop → stop ≤ items.length
  | replace index _ => index < items.length

def perform (side : Side) (buffer : Buffer size) (count : Nat) :
    Change → Except Fault (Buffer size)
  | insert position new =>
    Region.insert side buffer count position (pack side new) (endsFrom 0 new)
  | remove first stop => Region.remove side buffer count first stop
  | replace index item => Region.replace side buffer count index item

/-- The count after a change is the length of the list after it. -/
theorem length_on {change : Change} (inside : change.Inside items) :
    (change.on items).length = change.recount items.length := by
  cases change with
  | insert position new =>
      simp only [on, recount, List.length_append, List.length_take, List.length_drop]
      simp only [Inside] at inside
      omega
  | remove first stop =>
      simp only [on, recount, List.length_append, List.length_take, List.length_drop]
      simp only [Inside] at inside
      omega
  | replace index item => simp [on, recount]

theorem footprint_remove_le (items : List Bytes) (first stop : Nat) :
    footprint ((remove first stop).on items) ≤ footprint items := by
  have later : (items.drop (max first stop)).Sublist (items.drop first) :=
    List.drop_sublist_drop_left items (Nat.le_max_left first stop)
  have fewer := (List.Sublist.refl (items.take first)).append later
  rw [List.take_append_drop] at fewer
  exact footprint_mono fewer

/-- A change makes of the list held what it says, and leaves alone what the region used neither
before nor afterwards. -/
theorem perform_yields (change : Change) (holds : Holds side buffer items)
    (small : size < slotLimit) (inside : change.Inside items)
    (fits : footprint (change.on items) ≤ size) :
    Yields (change.perform side buffer items.length) fun written =>
      Holds side written (change.on items) ∧
        AgreeBeyond side (max (footprint items) (footprint (change.on items))) buffer written := by
  cases change with
  | insert position new =>
      rcases exists_split_of_le inside with ⟨front, back, rfl, rfl⟩
      simp only [on, List.take_left, List.drop_left] at fits ⊢
      apply (holds.insert_yields new small fits).mono
      rintro written ⟨result, agree⟩
      exact ⟨result, agree.mono (Nat.le_max_right _ _)⟩
  | remove first stop =>
      by_cases some : first < stop
      · rcases exists_split_of_range (Nat.le_of_lt some) (inside some) with
          ⟨front, middle, back, rfl, rfl, rfl⟩
        simp only [on, take_append_append, Nat.max_eq_right (Nat.le_of_lt some),
          List.drop_left]
        apply (holds.remove_yields small).mono
        rintro written ⟨result, agree⟩
        exact ⟨result, agree.mono (Nat.le_max_left _ _)⟩
      · -- Without items to remove, the positions need not even lie in the list.
        have none : stop ≤ first := Nat.le_of_not_lt some
        simp only [on, Nat.max_eq_left none, List.take_append_drop]
        rw [perform, Region.remove, if_pos none]
        exact Yields.pure ⟨holds, AgreeBeyond.refl ..⟩
  | replace index item =>
      rcases exists_cons_of_lt inside with ⟨front, old, back, rfl, rfl⟩
      have changed : (front ++ old :: back).set front.length item = front ++ item :: back := by
        simp
      simp only [on, changed] at fits ⊢
      exact holds.replace_yields item small fits

end Change

/-! ## Regions that are read -/

/-- Packed items, with their ends counted from the start of the first of them. -/
structure Describes (side : Side) (blob : Bytes) (ends : List Nat) (items : List Bytes) : Prop where
  blob_eq : blob = pack side items
  ends_eq : ends = endsFrom 0 items

/-- A region that was read as some items has become one that is read as others, with another count.
It uses the bytes that these take up, and what lies beyond the bytes used before or now is as it
was. -/
structure Becomes (side : Side) (buffer : Buffer size) (items : List Bytes) (count : Nat)
    (changed : List Bytes) (written : Buffer size) : Prop where
  reads : Reads side written count changed
  used_eq : used side written count = .ok (2 * slotsFor count + changed.flatten.length)
  untouched : AgreeBeyond side
    (max (2 * slotsFor items.length + items.flatten.length)
      (2 * slotsFor count + changed.flatten.length)) buffer written

/-- A region that holds a list is read as that list, and uses the bytes of its items and slots. -/
theorem Becomes.of_holds {changed : List Bytes} {written : Buffer size}
    (holds : Holds side written changed) (small : size < slotLimit)
    (length_eq : changed.length = count)
    (agree : AgreeBeyond side (max (footprint items) (footprint changed)) buffer written) :
    Becomes side buffer items count changed written := by
  subst length_eq
  rw [footprint_eq, footprint_eq] at agree
  exact ⟨holds.reads small, footprint_eq changed ▸ holds.used_eq small, agree⟩

/-- The operations act on a region as on the list that is read from it, wherever the positions are
in the list and the result has room. Ranges of items are described by what is read of them, so that
they are the same items in whatever region they are inserted. -/
structure Refines (side : Side) (buffer : Buffer size) (count : Nat) (items : List Bytes) :
    Prop where
  used_eq : used side buffer count = .ok (2 * slotsFor count + items.flatten.length)
  insert (position : Nat) {blob : Bytes} {ends : List Nat} {new : List Bytes}
      (describes : Describes side blob ends new) (inside : position ≤ count)
      (fits : 2 * slotsFor (count + new.length) + (items.flatten.length + new.flatten.length) ≤
        size) :
    Yields (Region.insert side buffer count position blob ends)
      (Becomes side buffer items (count + new.length)
        (items.take position ++ new ++ items.drop position))
  remove (first stop : Nat) (inside : first < stop → stop ≤ count) :
    Yields (Region.remove side buffer count first stop)
      (Becomes side buffer items (count - (stop - first))
        (items.take first ++ items.drop (max first stop)))
  replace (index : Nat) (item : Bytes) (inside : index < count)
      (fits : 2 * slotsFor count + (items.set index item).flatten.length ≤ size) :
    Yields (Region.replace side buffer count index item)
      (Becomes side buffer items count (items.set index item))
  extract (first stop : Nat) (ordered : first ≤ stop) (inside : stop ≤ count) :
    ∃ blob ends, Region.items side buffer count first stop = .ok blob ∧
      endsWithin side buffer count first stop = .ok ends ∧
      Describes side blob ends (items.extract first stop)
  transfer {otherSize : Nat} {other : Buffer otherSize} {others : List Bytes} {otherCount : Nat}
      (otherSmall : otherSize ≤ 65535) (otherReads : Reads side other otherCount others)
      (position first stop : Nat) (ordered : first ≤ stop) (inside : stop ≤ count)
      (within : position ≤ otherCount)
      (fits : 2 * slotsFor (otherCount + (stop - first)) +
        (others.flatten.length + (items.extract first stop).flatten.length) ≤ otherSize) :
    Yields
      (do
        let blob ← Region.items side buffer count first stop
        let ends ← endsWithin side buffer count first stop
        Region.insert side other otherCount position blob ends)
      (Becomes side other others (otherCount + (stop - first))
        (others.take position ++ items.extract first stop ++ others.drop position))

namespace Reads

variable (reads : Reads side buffer count items)
include reads

theorem becomes (small : size < slotLimit) (change : Change) (inside : change.Inside items)
    (fits : footprint (change.on items) ≤ size) :
    Yields (change.perform side buffer count)
      (Becomes side buffer items (change.recount count) (change.on items)) := by
  have performs := change.perform_yields reads.holds small inside fits
  rw [reads.length_eq] at performs
  apply performs.mono
  rintro written ⟨result, agree⟩
  have length_eq := Change.length_on inside
  rw [reads.length_eq] at length_eq
  exact Becomes.of_holds result small length_eq agree

/-- Inserted are whatever items the bytes and their ends describe. -/
theorem insert_becomes (small : size < slotLimit) {position : Nat} {blob : Bytes} {ends : List Nat}
    {new : List Bytes} (describes : Describes side blob ends new) (inside : position ≤ count)
    (fits : 2 * slotsFor (count + new.length) + (items.flatten.length + new.flatten.length) ≤
      size) :
    Yields (Region.insert side buffer count position blob ends)
      (Becomes side buffer items (count + new.length)
        (items.take position ++ new ++ items.drop position)) := by
  rcases describes with ⟨rfl, rfl⟩
  have within : (Change.insert position new).Inside items := by
    rw [Change.Inside, reads.length_eq]
    exact inside
  apply reads.becomes small (.insert position new) within
  have total : ((Change.insert position new).on items).flatten.length =
      items.flatten.length + new.flatten.length := by
    have parts : items.flatten.length =
        (items.take position).flatten.length + (items.drop position).flatten.length := by
      rw [← List.length_append, ← List.flatten_append, List.take_append_drop]
    simp only [Change.on, List.flatten_append, List.length_append]
    omega
  rw [footprint_eq, total, Change.length_on within, reads.length_eq]
  exact fits

theorem extract_describes (small : size < slotLimit) (first stop : Nat) (ordered : first ≤ stop)
    (inside : stop ≤ count) :
    ∃ blob ends, Region.items side buffer count first stop = .ok blob ∧
      endsWithin side buffer count first stop = .ok ends ∧
      Describes side blob ends (items.extract first stop) := by
  have holds := reads.holds
  have length_eq := reads.length_eq
  subst length_eq
  rcases exists_split_of_range ordered inside with ⟨front, middle, back, rfl, rfl, rfl⟩
  rw [extract_append]
  exact ⟨_, _, holds.items_eq small, holds.endsWithin_eq small, rfl, rfl⟩

end Reads

/-- A region of a buffer that a slot can measure acts as the list that is read from it. -/
theorem reads_refines (small : size ≤ 65535) (reads : Reads side buffer count items) :
    Refines side buffer count items := by
  have limited : size < slotLimit := Nat.lt_succ_of_le small
  have length_eq := reads.length_eq
  refine ⟨?_, ?_, ?_, ?_, reads.extract_describes limited, ?_⟩
  · rw [← length_eq, ← footprint_eq]
    exact reads.holds.used_eq limited
  · exact fun position _ _ _ describes inside fits =>
      reads.insert_becomes limited describes inside fits
  · intro first stop inside
    apply reads.becomes limited (.remove first stop)
    · rw [Change.Inside, length_eq]
      exact inside
    · exact Nat.le_trans (Change.footprint_remove_le items first stop) reads.holds.fits
  · intro index item inside fits
    apply reads.becomes limited (.replace index item)
    · rw [Change.Inside, length_eq]
      exact inside
    · rw [footprint_eq, Change.on, List.length_set, length_eq]
      exact fits
  · intro otherSize other others otherCount otherSmall otherReads position first stop ordered inside
      within fits
    rcases reads.extract_describes limited first stop ordered inside with
      ⟨blob, ends, blob_eq, ends_eq, describes⟩
    have moved : (items.extract first stop).length = stop - first := by
      simp
      omega
    rw [bind_of_eq_ok blob_eq, bind_of_eq_ok ends_eq, ← moved]
    rw [← moved] at fits
    exact otherReads.insert_becomes (Nat.lt_succ_of_le otherSmall) describes within fits

/-- Into a region with fifteen items two more are inserted in the middle, and then there are more
items than in one batch of slots. -/
theorem reads_refines_inserted : ∃ buffer : Buffer 128,
    Reads .back buffer 15 (List.replicate 15 [9]) ∧
      Yields (Region.insert .back buffer 15 7 [1, 2, 3] [1, 3])
        (Becomes .back buffer (List.replicate 15 [9]) 17
          (List.replicate 7 [9] ++ [[3], [1, 2]] ++ List.replicate 8 [9])) := by
  have empty : Reads .back (Buffer.zero 128) 0 [] := ⟨rfl, by simp⟩
  have fifteen : Describes .back (List.replicate 15 9) (List.range' 1 15) (List.replicate 15 [9]) :=
    ⟨rfl, rfl⟩
  rcases (reads_refines (by decide) empty).insert 0 fifteen (by decide) (by decide) with
    ⟨buffer, _, becomes⟩
  have reads : Reads .back buffer 15 (List.replicate 15 [9]) := becomes.reads
  have describes : Describes .back [1, 2, 3] [1, 3] [[3], [1, 2]] := ⟨rfl, rfl⟩
  have inserts := (reads_refines (by decide) reads).insert 7 describes (by decide) (by decide)
  exact ⟨buffer, reads, inserts⟩

end Region

end PagedMap
