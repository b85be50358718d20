import PagedMap.Proofs.Page.Splits

/-!
# Both sides of a split have room

A page is split at the middle of its bytes if it has no room for what is to be written. Before the
item at the split point lies at most half of the bytes, and from the split point on lies at most
half of them or one item. No item takes more than a quarter of a leaf or an eighth of a node, so
that the side that gets the new item has room for it.
-/

namespace PagedMap

variable {α : Type} {size : α → Nat} {items : List α} {half largest : Nat}

/-- A split point between two items, near the middle of their sizes. -/
structure Halving (size : α → Nat) (largest : Nat) (items : List α) (half : Nat) : Prop where
  positive : 1 ≤ half
  inside : half < items.length
  before : 2 * weigh size (items.take (half - 1)) ≤ weigh size items
  behind : 2 * weigh size (items.drop half) ≤ weigh size items ∨
    weigh size (items.drop half) ≤ largest

/-- At the midpoint, kept away from both ends, neither side has more than half of the bytes and one
item. -/
theorem halving_of_midpoint {midpoint : Nat} (several : 2 ≤ items.length)
    (bounded : ∀ item ∈ items, size item ≤ largest)
    (inside : midpoint ≤ items.length)
    (reached : weigh size items ≤ 2 * weigh size (items.take midpoint))
    (before : 0 < midpoint → 2 * weigh size (items.take (midpoint - 1)) < weigh size items)
    (half_eq : half = min (max midpoint 1) (items.length - 1)) :
    Halving size largest items half := by
  have split := weigh_take_add_drop size items half
  refine ⟨by omega, by omega, ?_, ?_⟩
  · -- Before the item at the cut there is nothing if the cut is the first possible one.
    by_cases first : half = 1
    · rw [first, Nat.sub_self, List.take_zero, weigh_nil]
      omega
    · have earlier : weigh size (items.take (half - 1)) ≤ weigh size (items.take (midpoint - 1)) :=
        weigh_take_mono size items (by omega)
      have := before (by omega)
      omega
  · -- A midpoint at the end leaves one item behind the cut, which is small.
    by_cases atEnd : midpoint = items.length
    · right
      have nonempty : half < items.length := by omega
      have last : items.drop half = [items[half]] := by
        rw [List.drop_eq_getElem_cons (by omega), List.drop_of_length_le (by omega)]
      rw [last, weigh_cons, weigh_nil, Nat.add_zero]
      exact bounded _ (List.getElem_mem _)
    · left
      have later : weigh size (items.take midpoint) ≤ weigh size (items.take half) :=
        weigh_take_mono size items (by omega)
      omega

section Insertion

variable {front back : List α} {item : α} {cut : Nat}

theorem take_insert_of_lt (before : front.length < cut) :
    (front ++ item :: back).take cut = front ++ item :: back.take (cut - 1 - front.length) := by
  obtain ⟨gap, rfl⟩ : ∃ gap, cut = front.length + gap + 1 :=
    ⟨cut - 1 - front.length, by omega⟩
  rw [Nat.add_assoc, List.take_length_add_append, List.take_succ_cons]
  congr 3
  omega

theorem weigh_take_insert_of_lt (before : front.length < cut) :
    weigh size ((front ++ item :: back).take cut) =
      weigh size ((front ++ back).take (cut - 1)) + size item := by
  obtain ⟨gap, rfl⟩ : ∃ gap, cut = front.length + gap + 1 :=
    ⟨cut - 1 - front.length, by omega⟩
  rw [take_insert_of_lt before, Nat.add_sub_cancel, List.take_length_add_append, weigh_append,
    weigh_append, weigh_cons, Nat.add_sub_cancel_left]
  omega

theorem take_insert_of_le (after : cut ≤ front.length) :
    (front ++ item :: back).take cut = (front ++ back).take cut := by
  rw [List.take_append_of_le_length after, List.take_append_of_le_length after]

theorem weigh_drop_insert_of_le (after : cut ≤ front.length) :
    weigh size ((front ++ item :: back).drop cut) =
      weigh size ((front ++ back).drop cut) + size item := by
  rw [List.drop_append_of_le_length after, List.drop_append_of_le_length after, weigh_append,
    weigh_append, weigh_cons]
  omega

theorem drop_insert_of_lt (before : front.length < cut) :
    (front ++ item :: back).drop cut = (front ++ back).drop (cut - 1) := by
  obtain ⟨gap, rfl⟩ : ∃ gap, cut = front.length + gap + 1 :=
    ⟨cut - 1 - front.length, by omega⟩
  rw [Nat.add_sub_cancel, List.drop_length_add_append, Nat.add_assoc,
    List.drop_length_add_append, List.drop_succ_cons]

end Insertion

/-- The most that a side gets when a page is split at the middle of its bytes: half of them and one
item more, or two items. -/
def evenShare (largest total : Nat) : Nat := max (2 * largest) (total / 2 + largest)

/-- The item before the split point makes the difference between a cut there and one item earlier. -/
theorem Halving.exists_item (halving : Halving size largest items half)
    (bounded : ∀ item ∈ items, size item ≤ largest) :
    ∃ last ≤ largest,
      weigh size (items.take half) = weigh size (items.take (half - 1)) + last ∧
      weigh size (items.drop (half - 1)) = last + weigh size (items.drop half) := by
  have positive := halving.positive
  have inside := halving.inside
  have within : half - 1 < items.length := by omega
  refine ⟨size items[half - 1], bounded _ (List.getElem_mem within), ?_, ?_⟩
  · rw [← weigh_take_succ size within, Nat.sub_add_cancel positive]
  · rw [List.drop_eq_getElem_cons within, weigh_cons, Nat.sub_add_cancel positive]

section Shares

variable {front back : List α} {item old : α} {cut : Nat}

/-- With one item more, neither side of the cut gets more than an even share. -/
theorem Halving.share_insert (halving : Halving size largest (front ++ back) half)
    (bounded : ∀ other ∈ front ++ back, size other ≤ largest) (small : size item ≤ largest) :
    weigh size ((front ++ item :: back).take half) ≤
        evenShare largest (weigh size (front ++ back)) ∧
      weigh size ((front ++ item :: back).drop half) ≤
        evenShare largest (weigh size (front ++ back)) := by
  have before := halving.before
  have behind := halving.behind
  rcases halving.exists_item bounded with ⟨last, lastSmall, taken, dropped⟩
  simp only [evenShare]
  by_cases into : front.length < half
  · rw [weigh_take_insert_of_lt into, drop_insert_of_lt into]
    omega
  · rw [take_insert_of_le (by omega), weigh_drop_insert_of_le (by omega)]
    omega

/-- Another item in the place of one, cut where the halving says, leaves at most an even share on
either side, measured by the items from before. -/
theorem Halving.share_replace (halving : Halving size largest (front ++ old :: back) half)
    (bounded : ∀ other ∈ front ++ old :: back, size other ≤ largest)
    (small : size item ≤ largest)
    (cut_eq : cut = if front.length + 1 < half then half - 1 else half) :
    weigh size ((front ++ item :: back).take cut) ≤
        evenShare largest (weigh size (front ++ old :: back)) ∧
      weigh size ((front ++ item :: back).drop cut) ≤
        evenShare largest (weigh size (front ++ old :: back)) := by
  have positive := halving.positive
  have before := halving.before
  have behind := halving.behind
  rcases halving.exists_item bounded with ⟨last, lastSmall, taken, dropped⟩
  simp only [evenShare]
  by_cases into : front.length < cut
  · -- The old item lies before the cut, in the first half or as its last item.
    have kept : weigh size ((front ++ back).take (cut - 1)) ≤
        weigh size ((front ++ old :: back).take (half - 1)) := by
      by_cases inFirst : front.length + 1 < half
      · rw [if_pos inFirst] at cut_eq
        rw [cut_eq, weigh_take_insert_of_lt (by omega)]
        omega
      · rw [if_neg inFirst] at cut_eq
        exact Nat.le_of_eq (by rw [take_insert_of_le (by omega), cut_eq])
    have rest : weigh size ((front ++ old :: back).drop cut) ≤
        last + weigh size ((front ++ old :: back).drop half) := by
      split at cut_eq
      · rw [cut_eq]
        exact Nat.le_of_eq dropped
      · rw [cut_eq]
        exact Nat.le_add_left _ _
    have same : (front ++ item :: back).drop cut = (front ++ old :: back).drop cut := by
      rw [drop_insert_of_lt into, drop_insert_of_lt into]
    rw [weigh_take_insert_of_lt into, same]
    omega
  · have cutAtHalf : cut = half := by
      split at cut_eq <;> omega
    have kept : (front ++ item :: back).take cut = (front ++ old :: back).take cut := by
      rw [take_insert_of_le (by omega), take_insert_of_le (by omega)]
    have without : weigh size ((front ++ old :: back).drop cut) =
        weigh size ((front ++ back).drop cut) + size old :=
      weigh_drop_insert_of_le (by omega)
    subst cutAtHalf
    rw [kept, weigh_drop_insert_of_le (by omega)]
    omega

end Shares

theorem tableSize_le_of_few {count : Nat} (few : count < 256) : tableSize count ≤ 512 := by
  simp only [tableSize, slotsFor, slotSize, slotBatch]
  omega

theorem Leaf.load_le_of_share {records part : List Record} (fits : load records ≤ leafCapacity)
    (few : records.length < 256) (shorter : part.length ≤ records.length)
    (share : weigh recordSize part ≤ evenShare maxInlineEntry (weigh recordSize records)) :
    load part ≤ leafCapacity := by
  have smallTable := tableSize_le_of_few few
  have table := tableSize_mono shorter
  simp only [load, evenShare, leafCapacity, pageSize, headerSize, maxInlineEntry] at *
  omega

namespace Node

variable {front back : List Bytes} {key : Bytes}

/-- Both halves of a node with one key more have room, since no key is long. -/
theorem load_le_of_halving
    (halving : Halving routeSize (maxKeySize + childSize) (front ++ back) half)
    (fits : load (front ++ back) ≤ nodeCapacity) (few : (front ++ back).length < 256)
    (small : key.length ≤ maxKeySize) :
    load ((front ++ key :: back).take half) ≤ nodeCapacity ∧
      load ((front ++ key :: back).drop (half + 1)) ≤ nodeCapacity := by
  have inside := halving.inside
  have positive := halving.positive
  have before := halving.before
  have behind := halving.behind
  have table := tableSize_le_of_few few
  have longer : (front ++ key :: back).length = (front ++ back).length + 1 := by
    simp only [List.length_append, List.length_cons]
    omega
  have size : routeSize key = key.length + childSize := rfl
  simp only [load, nodeCapacity, pageSize, headerSize, maxKeySize, childSize] at *
  have lower : tableSize ((front ++ key :: back).take half).length ≤
      tableSize (front ++ back).length :=
    tableSize_mono (by rw [List.length_take]; omega)
  have upper : tableSize ((front ++ key :: back).drop (half + 1)).length ≤
      tableSize (front ++ back).length :=
    tableSize_mono (by rw [List.length_drop]; omega)
  have split := weigh_take_add_drop routeSize (front ++ back) half
  have fewerBehind := weigh_le_of_sublist routeSize
    (List.drop_sublist_drop_left (front ++ back) (Nat.le_add_right half 1))
  constructor
  · have lighter : weigh routeSize ((front ++ key :: back).take half) ≤
        weigh routeSize ((front ++ back).take (half - 1)) + routeSize key ∨
        weigh routeSize ((front ++ key :: back).take half) ≤
          weigh routeSize (front ++ back) := by
      by_cases into : front.length < half
      · exact Or.inl (Nat.le_of_eq (weigh_take_insert_of_lt into))
      · right
        rw [take_insert_of_le (by omega)]
        omega
    omega
  · have lighter : weigh routeSize ((front ++ key :: back).drop (half + 1)) ≤
        weigh routeSize ((front ++ back).drop half) + routeSize key := by
      by_cases into : front.length < half + 1
      · rw [drop_insert_of_lt into, Nat.add_sub_cancel]
        omega
      · rw [weigh_drop_insert_of_le (by omega)]
        omega
    omega

end Node

end PagedMap
