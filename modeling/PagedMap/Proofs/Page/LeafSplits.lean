import PagedMap.Proofs.Page.SplitPoints

/-!
# Leaves without room

A leaf that has no room for what is to be written, or is to hold no more records, has enough records
to be split, and is split in two leaves that hold some of the records each and no more than the leaf
did. Both have room for what they get.
-/

namespace PagedMap.Leaf

variable {leaf : Leaf} {records front back : List Record} {record old : Record} {value : Bytes}
  {lacksBytes : Bool}

/-- The records are divided between the two leaves of a split. -/
structure DividedAs (leaf : Leaf) (records lower upper : List Record) (sides : Leaf × Leaf) : Prop
    extends SplitInto leaf lower upper sides where
  records_eq : records = lower ++ upper
  lowerFilled : lower ≠ []
  upperFilled : upper ≠ []
  lowerFew : lower.length ≤ leaf.count
  upperFew : upper.length ≤ leaf.count

/-- A part of some records has no more than its share of the bytes of a whole list. -/
def Shares (whole part : List Record) : Prop :=
  weigh recordSize part ≤ evenShare maxInlineEntry (weigh recordSize whole)

/-- Writing a record at a place by a split makes other records of those of the leaf, and divides
them. The bytes are shared if it was bytes that were lacking. -/
def Divides (leaf : Leaf) (place : Place) (record : Record) (lacksBytes : Bool)
    (old records : List Record) : Prop :=
  ∃ midpoint half lower upper, leaf.midpoint = .ok midpoint ∧
    splitPoint leaf.count lacksBytes midpoint = .ok half ∧
    (lacksBytes = true → Shares old lower ∧ Shares old upper) ∧
    Yields (leaf.split place record.1 record.2 half) (DividedAs leaf records lower upper)

/-- Records fill a leaf only if there are many of them. -/
theorem load_le_of_few (few : records.length ≤ 2)
    (small : ∀ record ∈ records, recordSize record ≤ maxInlineEntry) :
    load records ≤ leafCapacity := by
  have weight : weigh recordSize records ≤ records.length * maxInlineEntry :=
    weigh_le_of_bounded recordSize records small
  have table := tableSize_mono few
  have smallTable : tableSize 2 ≤ 64 := by decide
  have bounded : records.length * maxInlineEntry ≤ 2 * maxInlineEntry :=
    Nat.mul_le_mul_right _ few
  simp only [load, maxInlineEntry, leafCapacity, pageSize, headerSize] at *
  omega

/-- The midpoint of a leaf with several records is near the middle of their sizes. -/
theorem Holds.exists_halving (holds : leaf.Holds records) (several : 2 ≤ leaf.count)
    (small : ∀ record ∈ records, recordSize record ≤ maxInlineEntry) (lacksBytes : Bool) :
    ∃ midpoint half, leaf.midpoint = .ok midpoint ∧
      splitPoint leaf.count lacksBytes midpoint = .ok half ∧ 1 ≤ half ∧ half < leaf.count ∧
      (lacksBytes = true → Halving recordSize maxInlineEntry records half) := by
  rcases holds.midpoint_yields with ⟨midpoint, found, inside, reached, before⟩
  have half_eq := splitPoint_eq several lacksBytes midpoint
  generalize halves : min (max (if lacksBytes then midpoint else leaf.count / 2) 1)
    (leaf.count - 1) = half at half_eq
  refine ⟨midpoint, half, found, half_eq, by omega, by omega, ?_⟩
  rintro rfl
  rw [if_pos rfl, holds.count_eq] at halves
  rw [holds.count_eq] at several
  exact halving_of_midpoint several small inside reached before halves.symm

/-- A full leaf is divided with a new record in it. Entries are small enough that each half has
room. -/
theorem Holds.divides_insert (holds : leaf.Holds (front ++ back))
    (small : ∀ other ∈ front ++ record :: back, recordSize other ≤ maxInlineEntry)
    (full : lacksBytes = decide (leafCapacity < load (front ++ record :: back)))
    (crowded : lacksBytes = false → 2 ≤ leaf.count) :
    leaf.Divides ⟨front.length, false⟩ record lacksBytes (front ++ back)
      (front ++ record :: back) := by
  have count_eq := holds.count_eq
  have longer : (front ++ record :: back).length = leaf.count + 1 := by
    simp only [List.length_append, List.length_cons] at count_eq ⊢
    omega
  -- Where bytes are lacking there are several records, because two always have room.
  have several : 2 ≤ leaf.count := by
    cases lacksBytes with
    | false => exact crowded rfl
    | true =>
        apply Nat.le_of_not_lt
        intro few
        have fits := load_le_of_few (by omega) small
        have overfull := of_decide_eq_true full.symm
        omega
  have smallOld := (forall_mem_insert.mp small).2
  rcases holds.exists_halving several smallOld lacksBytes with
    ⟨midpoint, half, found, halves, positive, inside, halving⟩
  have shares : lacksBytes = true → Shares (front ++ back) ((front ++ record :: back).take half) ∧
      Shares (front ++ back) ((front ++ record :: back).drop half) :=
    fun lacks => (halving lacks).share_insert smallOld (small record (by simp))
  -- Without a lack of bytes both parts are sublists of what fits; else they have their share.
  have fits : load ((front ++ record :: back).take half) ≤ leafCapacity ∧
      load ((front ++ record :: back).drop half) ≤ leafCapacity := by
    cases lacksBytes with
    | false =>
        have light := Nat.le_of_not_lt (of_decide_eq_false full.symm)
        constructor
        · exact Nat.le_trans (load_mono (List.take_sublist _ _)) light
        · exact Nat.le_trans (load_mono (List.drop_sublist _ _)) light
    | true =>
        constructor
        · apply load_le_of_share holds.fits holds.length_lt _ (shares rfl).1
          rw [List.length_take]
          omega
        · apply load_le_of_share holds.fits holds.length_lt _ (shares rfl).2
          rw [List.length_drop]
          omega
  have insideOld := inside
  rw [count_eq] at insideOld
  rcases split_insert_yields holds positive insideOld fits.1 fits.2 with
    ⟨lower, upper, records_eq, length_lower, splits⟩
  rw [records_eq, List.take_left' length_lower, List.drop_left' length_lower] at shares
  refine ⟨midpoint, half, lower, upper, found, halves, shares, splits.mono ?_⟩
  intro sides parts
  have lengths := congrArg List.length records_eq
  rw [longer, List.length_append] at lengths
  exact ⟨parts, records_eq, List.length_pos_iff.mp (by omega), List.length_pos_iff.mp (by omega),
    by omega, by omega⟩

/-- A leaf is divided when a longer value has no room in it, though it has no more records than
before. -/
theorem Holds.divides_setValue (holds : leaf.Holds (front ++ old :: back))
    (small : ∀ other ∈ front ++ old :: back, recordSize other ≤ maxInlineEntry)
    (smallNew : recordSize (old.1, value) ≤ maxInlineEntry)
    (full : leafCapacity < load (front ++ (old.1, value) :: back)) :
    leaf.Divides ⟨front.length + 1, true⟩ (old.1, value) true (front ++ old :: back)
      (front ++ (old.1, value) :: back) := by
  have count_eq := holds.count_eq
  have sameLength : (front ++ (old.1, value) :: back).length = leaf.count := by
    simp only [List.length_append, List.length_cons] at count_eq ⊢
    omega
  have several : 2 ≤ leaf.count := by
    apply Nat.le_of_not_lt
    intro few
    have fits : load (front ++ (old.1, value) :: back) ≤ leafCapacity := by
      apply load_le_of_few (by omega)
      exact forall_mem_insert.mpr ⟨smallNew, (forall_mem_insert.mp small).2⟩
    omega
  rcases holds.exists_halving several small true with
    ⟨midpoint, half, found, halves, positive, inside, halving⟩
  -- The code counts the old record before the cut, and the new one takes its place.
  generalize cut_eq : (if front.length + 1 < half then half - 1 else half) = cut
  have cutInside : 1 ≤ cut ∧ cut ≤ half := by
    split at cut_eq <;> omega
  have shares : Shares (front ++ old :: back) ((front ++ (old.1, value) :: back).take cut) ∧
      Shares (front ++ old :: back) ((front ++ (old.1, value) :: back).drop cut) :=
    (halving rfl).share_replace small smallNew cut_eq.symm
  have fitsLeft : load ((front ++ (old.1, value) :: back).take cut) ≤ leafCapacity := by
    apply load_le_of_share holds.fits holds.length_lt _ shares.1
    rw [List.length_take]
    omega
  have fitsRight : load ((front ++ (old.1, value) :: back).drop cut) ≤ leafCapacity := by
    apply load_le_of_share holds.fits holds.length_lt _ shares.2
    rw [List.length_drop]
    omega
  have insideOld := inside
  rw [count_eq] at insideOld
  rcases split_setValue_yields holds positive insideOld cut_eq.symm fitsLeft fitsRight with
    ⟨lower, upper, records_eq, length_lower, splits⟩
  rw [records_eq, List.take_left' length_lower, List.drop_left' length_lower] at shares
  refine ⟨midpoint, half, lower, upper, found, halves, fun _ => shares, splits.mono ?_⟩
  intro sides parts
  have lengths := congrArg List.length records_eq
  rw [sameLength, List.length_append] at lengths
  exact ⟨parts, records_eq, List.length_pos_iff.mp (by omega), List.length_pos_iff.mp (by omega),
    by omega, by omega⟩

end PagedMap.Leaf
