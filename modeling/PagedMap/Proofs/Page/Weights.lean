import PagedMap.Page.Region
import PagedMap.Search
import PagedMap.Proofs.Yielding

/-!
# Sizes of lists of items

How the sizes of items add up, how tables grow with the number of items, and where half of a total
size lies. The sizes here are those of pages, so that none of them leaves the range of words.
-/

namespace PagedMap

variable {α : Type}

/-- The sizes of all items together. -/
def weigh (size : α → Nat) : List α → Nat
  | [] => 0
  | item :: rest => size item + weigh size rest

@[simp]
theorem weigh_nil (size : α → Nat) : weigh size [] = 0 := rfl

@[simp]
theorem weigh_cons (size : α → Nat) (item : α) (rest : List α) :
    weigh size (item :: rest) = size item + weigh size rest := rfl

@[simp]
theorem weigh_append (size : α → Nat) (front back : List α) :
    weigh size (front ++ back) = weigh size front + weigh size back := by
  induction front with
  | nil => simp
  | cons item rest ih => simp [ih, Nat.add_assoc]

theorem weigh_take_add_drop (size : α → Nat) (items : List α) (index : Nat) :
    weigh size (items.take index) + weigh size (items.drop index) = weigh size items := by
  rw [← weigh_append, List.take_append_drop]

theorem weigh_take_succ (size : α → Nat) {items : List α} {index : Nat}
    (inside : index < items.length) :
    weigh size (items.take (index + 1)) =
      weigh size (items.take index) + size (items[index]) := by
  rw [List.take_succ_eq_append_getElem inside, weigh_append]
  rfl

theorem weigh_take_mono (size : α → Nat) (items : List α) {few many : Nat} (le : few ≤ many) :
    weigh size (items.take few) ≤ weigh size (items.take many) := by
  have split := weigh_take_add_drop size (items.take many) few
  rw [List.take_take, Nat.min_eq_left le] at split
  omega

theorem weigh_le_of_sublist (size : α → Nat) {fewer more : List α} (sublist : fewer.Sublist more) :
    weigh size fewer ≤ weigh size more := by
  induction sublist with
  | slnil => exact Nat.le_refl _
  | cons item _ ih =>
      rw [weigh_cons]
      omega
  | cons_cons item _ ih =>
      rw [weigh_cons, weigh_cons]
      omega

theorem weigh_le_of_bounded (size : α → Nat) {largest : Nat} (items : List α)
    (bounded : ∀ item ∈ items, size item ≤ largest) :
    weigh size items ≤ items.length * largest := by
  induction items with
  | nil => exact Nat.zero_le _
  | cons item rest ih =>
      have first := bounded item List.mem_cons_self
      have others := ih fun other member => bounded other (List.mem_cons_of_mem _ member)
      rw [weigh_cons, List.length_cons, Nat.succ_mul]
      omega

theorem foldl_add_eq_weigh (size : α → Nat) (items : List α) :
    (items.map size).foldl (· + ·) 0 = weigh size items := by
  have general (start : Nat) : (items.map size).foldl (· + ·) start = start + weigh size items := by
    induction items generalizing start with
    | nil => rfl
    | cons item rest ih => simp [ih, Nat.add_assoc]
  rw [general, Nat.zero_add]

theorem exists_split_of_lt {items : List α} {index : Nat} (inside : index < items.length) :
    ∃ front back, items = front ++ items[index] :: back ∧ front.length = index := by
  refine ⟨items.take index, items.drop (index + 1), ?_, ?_⟩
  · rw [← List.drop_eq_getElem_cons inside, List.take_append_drop]
  · simp
    omega

theorem exists_cons_of_lt {items : List α} {index : Nat} (inside : index < items.length) :
    ∃ front item back, items = front ++ item :: back ∧ front.length = index := by
  rcases exists_split_of_lt inside with ⟨front, back, items_eq, length_front⟩
  exact ⟨front, items[index], back, items_eq, length_front⟩

theorem exists_split_of_le {items : List α} {index : Nat} (inside : index ≤ items.length) :
    ∃ front back, items = front ++ back ∧ front.length = index :=
  ⟨items.take index, items.drop index, (List.take_append_drop index items).symm,
    List.length_take_of_le inside⟩

theorem exists_split_of_range {items : List α} {first stop : Nat} (ordered : first ≤ stop)
    (inside : stop ≤ items.length) :
    ∃ front middle back, items = front ++ middle ++ back ∧ front.length = first ∧
      (front ++ middle).length = stop := by
  rcases exists_split_of_le inside with ⟨near, back, rfl, length_near⟩
  rcases exists_split_of_le (length_near ▸ ordered) with ⟨front, middle, rfl, length_front⟩
  exact ⟨front, middle, back, rfl, length_front, length_near⟩

theorem forall_mem_insert {property : α → Prop} {front back : List α} {item : α} :
    (∀ other ∈ front ++ item :: back, property other) ↔
      property item ∧ ∀ other ∈ front ++ back, property other := by
  rw [List.forall_mem_append, List.forall_mem_append, List.forall_mem_cons, and_left_comm]

theorem insertIdx_append (front back : List α) (item : α) :
    (front ++ back).insertIdx front.length item = front ++ item :: back := by
  induction front with
  | nil => simp
  | cons first rest ih => simp [ih]

theorem extract_append (front middle back : List α) :
    (front ++ middle ++ back).extract front.length (front ++ middle).length = middle := by
  simp

theorem take_append_append (front middle back : List α) :
    (front ++ middle ++ back).take front.length = front := by
  rw [List.append_assoc, List.take_left' rfl]

/-! ## Tables and words -/

theorem tableSize_mono {few many : Nat} (le : few ≤ many) : tableSize few ≤ tableSize many := by
  simp only [tableSize, slotsFor, slotSize, slotBatch]
  omega

-- A table grows by a batch of slots at a time.
example : tableSize 1 = 32 ∧ tableSize 16 = 32 ∧ tableSize 17 = 64 := by decide

theorem reservedSlots_eq {count : Nat} (small : count < 0x10000) :
    reservedSlots count = .ok (slotsFor count) := by
  rw [reservedSlots, Word.mul, if_pos]
  · rfl
  · simp only [slotBatch, Word.limit]
    omega

theorem tableSize_le (count : Nat) : tableSize count ≤ slotSize * (count + slotBatch) := by
  simp only [tableSize, slotsFor, slotSize, slotBatch]
  omega

/-- As long as the counts are small, the growth of a table is the difference of its sizes. -/
theorem tableGrowth_eq {count : Nat} (added : Nat) (small : count + added < 0x10000) :
    tableGrowth count added = .ok ((tableSize (count + added) : Int) - tableSize count) := by
  have target : ((count : Int) + added).toNat = count + added := by omega
  have bound (many : Nat) (few : many < 0x10000) : slotsFor many < 0x20000 := by
    simp only [slotsFor, slotBatch]
    omega
  have before := bound count (by omega)
  have after := bound (count + added) small
  have difference : Word.ofInt ((slotsFor (count + added) : Int) - slotsFor count) =
      .ok ((slotsFor (count + added) : Int) - slotsFor count) := by
    rw [Word.ofInt, if_pos]
    simp only [Word.signedLimit]
    omega
  rw [tableGrowth]
  simp only [target]
  rw [bind_of_eq_ok (Fault.require_of (by
      rw [Bool.and_eq_true]
      exact ⟨decide_eq_true (by omega), decide_eq_true (by simp only [Word.limit]; omega)⟩) _),
    bind_of_eq_ok (reservedSlots_eq small), bind_of_eq_ok (reservedSlots_eq (by omega)),
    Word.signed_eq_self (by simp only [Word.signedLimit]; omega),
    Word.signed_eq_self (by simp only [Word.signedLimit]; omega),
    bind_of_eq_ok difference, Word.ofInt, if_pos]
  · simp only [tableSize, slotSize]
    congr 1
    omega
  · simp only [slotSize, Word.signedLimit]
    omega

theorem exceeds_eq {size capacity : Nat} {grown : Int} (small : size < Word.signedLimit)
    (shrunk : -Word.signedLimit ≤ size + grown) (expanded : size + grown < Word.signedLimit) :
    Word.exceeds size grown capacity = .ok (decide ((size : Int) + grown > capacity)) := by
  rw [Word.exceeds, Word.signed_eq_self small, Word.ofInt, if_pos ⟨shrunk, expanded⟩]
  rfl

theorem Word.add_yieldsWhere (left right : Nat) :
    YieldsWhere (left + right < Word.limit) (Word.add left right) fun sum => sum = left + right := by
  rw [Word.add]
  split
  next fits => exact YieldsWhere.of_yields fits (Yields.ok rfl)
  next large => exact YieldsWhere.of_error large rfl

/-! ## Where half of a total size lies -/

/-- The sum of the sizes before the position is carried along, and one less position has not reached
half. -/
theorem halfwayFrom_yields {total : Nat} {sizeAt : Nat → Except Fault Nat} {size : α → Nat}
    {items : List α} (known : ∀ index (inside : index < items.length),
      sizeAt index = .ok (size items[index]))
    (remaining position : Nat) (together : position + remaining = items.length)
    (enough : total ≤ 2 * weigh size items)
    (before : 0 < position → 2 * weigh size (items.take (position - 1)) < total) :
    Yields
      (halfwayFrom total sizeAt remaining position (weigh size (items.take position)))
      fun half => half ≤ items.length ∧ total ≤ 2 * weigh size (items.take half) ∧
        (0 < half → 2 * weigh size (items.take (half - 1)) < total) := by
  induction remaining generalizing position with
  | zero =>
      apply Yields.ok
      refine ⟨by omega, ?_, before⟩
      rw [List.take_of_length_le (by omega)]
      exact enough
  | succ remaining ih =>
      rw [halfwayFrom]
      split
      next reached => exact Yields.ok ⟨by omega, reached, before⟩
      next notReached =>
        rw [bind_of_eq_ok (known position (by omega)), ← weigh_take_succ size (by omega)]
        apply ih
        · omega
        · intro _
          rw [Nat.add_sub_cancel]
          omega

/-- Halfway there is at least half before, and one position earlier there is less. -/
theorem halfway_yields {total : Nat} {sizeAt : Nat → Except Fault Nat} {size : α → Nat}
    {items : List α} (known : ∀ index (inside : index < items.length),
      sizeAt index = .ok (size items[index]))
    (enough : total ≤ 2 * weigh size items) :
    Yields (halfway total items.length sizeAt) fun half =>
      half ≤ items.length ∧ total ≤ 2 * weigh size (items.take half) ∧
        (0 < half → 2 * weigh size (items.take (half - 1)) < total) :=
  halfwayFrom_yields known items.length 0 (by omega) enough (by omega)

end PagedMap
