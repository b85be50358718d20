import PagedMap.Search
import PagedMap.Proofs.Page.Weights

/-!
# Where a key cuts a list

A key cuts a list whose keys ascend in two: the items whose keys do not come after it, and those
whose keys do. Searching finds the place of the cut.
-/

namespace PagedMap

variable {α : Type} {keyOf : α → Bytes} {items low high : List α} {key : Bytes}

/-- The keys of the items ascend. -/
def Ascending (keyOf : α → Bytes) (items : List α) : Prop :=
  items.Pairwise fun left right => keyOf left < keyOf right

/-- The key comes between two lists of items. It may be the key of the last item of the first. -/
structure CutBy (keyOf : α → Bytes) (key : Bytes) (low high : List α) : Prop where
  le : ∀ item ∈ low, keyOf item ≤ key
  gt : ∀ item ∈ high, key < keyOf item

/-- A key cuts an ascending list in two: what does not exceed the key, and what does. -/
theorem Ascending.exists_cut (ascending : Ascending keyOf items) (key : Bytes) :
    ∃ low high, items = low ++ high ∧ CutBy keyOf key low high := by
  induction items with
  | nil => exact ⟨[], [], rfl, by simp, by simp⟩
  | cons item rest ih =>
      simp only [Ascending] at ascending
      rw [List.pairwise_cons] at ascending
      rcases ascending with ⟨first, ascending⟩
      by_cases le : keyOf item ≤ key
      · rcases ih ascending with ⟨low, high, rfl, cut⟩
        refine ⟨item :: low, high, rfl, ?_, cut.gt⟩
        intro other mem
        rcases List.mem_cons.mp mem with rfl | mem
        · exact le
        · exact cut.le other mem
      · refine ⟨[], item :: rest, rfl, by simp, ?_⟩
        have gt : key < keyOf item := by grind
        intro other mem
        rcases List.mem_cons.mp mem with rfl | mem
        · exact gt
        · have := first other mem
          grind

namespace CutBy

/-- An item's key does not come after the cutting key just if the item is before the cut. -/
theorem le_iff (cut : CutBy keyOf key low high) {index : Nat}
    (inside : index < (low ++ high).length) :
    keyOf (low ++ high)[index] ≤ key ↔ index < low.length := by
  constructor
  · intro le
    apply Nat.lt_of_not_le
    intro past
    have mem : (low ++ high)[index] ∈ high := by
      rw [List.getElem_append_right (by omega)]
      exact List.getElem_mem _
    have := cut.gt _ mem
    grind
  · intro before
    apply cut.le
    rw [List.getElem_append_left before]
    exact List.getElem_mem _

theorem search_eq {test : Nat → Except Fault Bool} (cut : CutBy keyOf key low high)
    (answers : ∀ index (inside : index < (low ++ high).length),
      test index = .ok (decide (keyOf (low ++ high)[index] ≤ key))) :
    search (low ++ high).length test = .ok low.length := by
  apply PagedMap.search_eq
  · simp
  · intro index inside
    rw [answers index inside]
    exact congrArg Except.ok (decide_eq_decide.mpr (cut.le_iff inside))

end CutBy

end PagedMap
