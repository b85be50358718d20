import PagedMap.Page.Leaf
import PagedMap.Proofs.Page.Cuts
import PagedMap.Proofs.Page.RegionUpdates

/-!
# Leaves hold lists of entries

A leaf holds a list of entries, keys with their encoded values, if its regions hold the keys and the
values and its header counts the entries and the bytes. Every operation on a leaf does to the list
what its name says, provided that the result has room.
-/

namespace PagedMap

/-- An entry of a leaf: a key and its encoded value. -/
abbrev Record := Bytes × Bytes

namespace Leaf

/-- The bytes of a record's key and encoded value. -/
def recordSize (record : Record) : Nat := record.1.length + record.2.length

/-- The bytes of the body that records take up. -/
def load (records : List Record) : Nat :=
  2 * tableSize records.length + weigh recordSize records

/-- A leaf holds records. -/
structure Holds (leaf : Leaf) (records : List Record) : Prop where
  count_eq : leaf.count = records.length
  keys : Region.Holds .front leaf.body (records.map Prod.fst)
  values : Region.Holds .back leaf.body (records.map Prod.snd)
  head_eq : leaf.counters.head.toNat = Region.footprint (records.map Prod.fst)
  tail_eq : leaf.counters.tail.toNat = Region.footprint (records.map Prod.snd)
  fits : load records ≤ leafCapacity

/-- What a leaf uses is what its two regions use. -/
theorem footprint_add_footprint (records : List Record) :
    Region.footprint (records.map Prod.fst) + Region.footprint (records.map Prod.snd) =
      load records := by
  have sizes : (records.map Prod.fst).flatten.length + (records.map Prod.snd).flatten.length =
      weigh recordSize records := by
    induction records with
    | nil => rfl
    | cons record rest ih =>
        simp only [List.map_cons, List.flatten_cons, List.length_append, weigh_cons,
          recordSize] at ih ⊢
        omega
  simp only [Region.footprint, load, List.length_map]
  omega

theorem capacity_lt : leafCapacity < slotLimit := by decide

theorem load_mono {fewer more : List Record} (sublist : fewer.Sublist more) :
    load fewer ≤ load more := by
  have lengths := tableSize_mono sublist.length_le
  have weights := weigh_le_of_sublist recordSize sublist
  simp only [load]
  omega

namespace Holds

variable {leaf : Leaf} {records front middle back : List Record} {record : Record}

theorem used_eq (holds : leaf.Holds records) : leaf.used = load records := by
  rw [used, Counters.used, holds.head_eq, holds.tail_eq, footprint_add_footprint]

theorem length_lt (holds : leaf.Holds records) : records.length < 256 := by
  rw [← holds.count_eq]
  exact leaf.counters.count.toNat_lt

theorem key_eq (holds : leaf.Holds (front ++ record :: back)) :
    leaf.key front.length = .ok record.1 := by
  have keys := holds.keys
  rw [List.map_append, List.map_cons] at keys
  have read := keys.item_eq capacity_lt
  rw [key, holds.count_eq, bind_of_eq_ok (Fault.require_of (by simp) _)]
  simpa using read

theorem value_eq (holds : leaf.Holds (front ++ record :: back)) :
    leaf.value front.length = .ok record.2 := by
  have values := holds.values
  rw [List.map_append, List.map_cons] at values
  have read := values.item_eq capacity_lt
  rw [value, holds.count_eq, bind_of_eq_ok (Fault.require_of (by simp) _)]
  simpa using read

theorem key_getElem (holds : leaf.Holds records) {index : Nat} (inside : index < records.length) :
    leaf.key index = .ok records[index].1 := by
  rcases exists_split_of_lt inside with ⟨front, back, records_eq, rfl⟩
  have split := holds
  rw [records_eq] at split
  exact split.key_eq

theorem value_getElem (holds : leaf.Holds records) {index : Nat}
    (inside : index < records.length) : leaf.value index = .ok records[index].2 := by
  rcases exists_split_of_lt inside with ⟨front, back, records_eq, rfl⟩
  have split := holds
  rw [records_eq] at split
  exact split.value_eq

theorem entries_eq (holds : leaf.Holds records) : leaf.entries = .ok records := by
  apply mapM_eq_ok (by simp [holds.count_eq])
  intro index inside _
  rw [List.length_range, holds.count_eq] at inside
  rw [List.getElem_range, bind_of_eq_ok (holds.key_getElem inside),
    bind_of_eq_ok (holds.value_getElem inside)]
  rfl

theorem entrySize_getElem (holds : leaf.Holds records) {index : Nat}
    (inside : index < records.length) :
    leaf.entrySize index = .ok (recordSize records[index]) := by
  rw [entrySize, bind_of_eq_ok (holds.key_getElem inside),
    bind_of_eq_ok (holds.value_getElem inside)]
  rfl

/-! ## Looking for a key -/

/-- The search finds how many keys do not exceed the one that is looked for, and whether the last of
these is it. -/
theorem find_eq {key : Bytes} (holds : leaf.Holds (front ++ back))
    (cut : CutBy Prod.fst key front back) :
    leaf.find key = .ok ⟨front.length, decide (front.getLast?.map Prod.fst = some key)⟩ := by
  have below : search leaf.count (fun index => return (← leaf.key index) ≤ key) =
      .ok front.length := by
    rw [holds.count_eq]
    apply cut.search_eq
    intro index inside
    rw [bind_of_eq_ok (holds.key_getElem inside)]
    rfl
  rw [find, bind_of_eq_ok below]
  rcases List.eq_nil_or_concat front with rfl | ⟨most, last, rfl⟩
  · rfl
  · rw [List.concat_eq_append] at holds ⊢
    rw [List.append_assoc] at holds
    rw [if_neg (by simp), List.length_append, List.length_singleton, Nat.add_sub_cancel,
      bind_of_eq_ok holds.key_eq]
    simp [Pure.pure, Except.pure]

/-! ## Changing the records -/

/-- The header takes up what the regions use, unless there are more records than it can count. -/
theorem recount_yieldsWhere {body : Buffer leafCapacity} (counters : Counters) (next : PageIndex)
    (keys : Region.Holds .front body (records.map Prod.fst))
    (values : Region.Holds .back body (records.map Prod.snd))
    (fits : load records ≤ leafCapacity) (stale : Buffer leafCapacity) :
    YieldsWhere (records.length < 256) (recount ⟨counters, next, stale⟩ records.length body)
      fun changed => changed.Holds records ∧ changed.next = next := by
  have together := footprint_add_footprint records
  have small := capacity_lt
  simp only [slotLimit] at small
  have head := keys.used_eq capacity_lt
  have tail := values.used_eq capacity_lt
  rw [List.length_map] at head tail
  rw [recount, bind_of_eq_ok head, bind_of_eq_ok tail, Counters.settle]
  by_cases few : records.length < 256
  · rw [if_pos few]
    refine YieldsWhere.of_yields few (Yields.ok ⟨⟨?_, keys, values, ?_, ?_, fits⟩, rfl⟩)
    · simp only [count, UInt8.toNat_ofNat']
      omega
    · simp only [UInt16.toNat_ofNat']
      omega
    · simp only [UInt16.toNat_ofNat']
      omega
  · rw [if_neg few]
    exact YieldsWhere.of_error few rfl

/-- Whether a further record would exceed the capacity, for all sizes that are signed words once
they are added up. -/
theorem overflowsWith_eq (holds : leaf.Holds records) {keySize valueSize : Nat}
    (small : 2 * tableSize (records.length + 1) +
      (weigh recordSize records + keySize + valueSize) < Word.signedLimit) :
    leaf.overflowsWith keySize valueSize = .ok (decide (leafCapacity <
      2 * tableSize (records.length + 1) + (weigh recordSize records + keySize + valueSize))) := by
  have few := holds.length_lt
  have grows := tableSize_mono (Nat.le_add_right records.length 1)
  have grown : tableGrowth records.length 1 =
      .ok ((tableSize (records.length + 1) : Int) - tableSize records.length) :=
    tableGrowth_eq 1 (by omega)
  simp only [Word.signedLimit] at small
  rw [overflowsWith, holds.count_eq, holds.used_eq, bind_of_eq_ok grown,
    bind_of_eq_ok (Word.add_eq_ok (by simp only [load, Word.limit]; omega)),
    bind_of_eq_ok (Word.add_eq_ok (by simp only [load, Word.limit]; omega)),
    exceeds_eq (by simp only [load, Word.signedLimit]; omega)
      (by simp only [load, Word.signedLimit]; omega) (by simp only [load, Word.signedLimit]; omega)]
  apply congrArg Except.ok
  apply decide_eq_decide.mpr
  simp only [load]
  omega

end Holds

end Leaf

end PagedMap
