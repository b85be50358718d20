import PagedMap.Proofs.Tree.Orders
import PagedMap.Proofs.Tree.Values

/-!
# What the records of a tree say

Records stand for a map from keys to values. A key has a place among records whose keys ascend:
between the records with lesser keys and those with greater ones. At this place the record of the
key is found, if there is one, and there a record is written.
-/

namespace PagedMap

/-- A map from byte strings to byte strings. -/
abbrev Contents := Bytes → Option Bytes

namespace Contents

/-- No key has a value. -/
def empty : Contents := fun _ => none

/-- The map that gives a key a value and is otherwise the same. -/
def insert (contents : Contents) (key value : Bytes) : Contents := fun other =>
  if other = key then some value else contents other

theorem insert_same (contents : Contents) (key value : Bytes) :
    contents.insert key value key = some value :=
  if_pos rfl

theorem insert_of_ne (contents : Contents) {key other : Bytes} (value : Bytes)
    (different : other ≠ key) : contents.insert key value other = contents other :=
  if_neg different

end Contents

/-- The place of a key among records: behind the lesser keys, and before the greater ones. In
between there is the record of the key, or nothing. -/
structure Around (key : Bytes) (less same more : List Record) : Prop where
  less : ∀ record ∈ less, record.1 < key
  same : same = [] ∨ ∃ encoded, same = [(key, encoded)]
  more : ∀ record ∈ more, key < record.1

namespace Around

variable {key : Bytes} {less same more front back : List Record}

/-- A key divides records into those with lesser keys, the one with this key if there is one, and
those with greater keys. -/
theorem exists_of_ascending {records : List Record} (ascending : Ascending Prod.fst records)
    (key : Bytes) :
    ∃ less same more, records = less ++ same ++ more ∧ Around key less same more := by
  rcases ascending.exists_cut key with ⟨low, high, rfl, cut⟩
  rcases List.eq_nil_or_concat low with rfl | ⟨most, last, rfl⟩
  · exact ⟨[], [], high, rfl, by simp, Or.inl rfl, cut.gt⟩
  rw [List.concat_eq_append] at ascending cut ⊢
  have before : ∀ record ∈ most, record.1 < last.1 := by
    intro record member
    have within := (List.pairwise_append.mp ascending).1
    exact (List.pairwise_append.mp within).2.2 record member last (by simp)
  have reached := cut.le last (by simp)
  by_cases exact_ : last.1 = key
  · refine ⟨most, [last], high, rfl, ?_, Or.inr ⟨last.2, by rw [← exact_]⟩, cut.gt⟩
    intro record member
    rw [← exact_]
    exact before record member
  · refine ⟨most ++ [last], [], high, by simp, ?_, Or.inl rfl, cut.gt⟩
    intro record member
    rcases List.mem_append.mp member with inMost | isLast
    · have := before record inMost
      grind
    · rw [List.mem_singleton.mp isLast]
      grind

theorem le (around : Around key less same more) : ∀ record ∈ less ++ same, record.1 ≤ key := by
  intro record member
  rcases List.mem_append.mp member with inLess | inSame
  · have := around.less record inLess
    grind
  · rcases around.same with rfl | ⟨encoded, rfl⟩
    · contradiction
    · rw [List.mem_singleton.mp inSame]
      exact List.le_refl _

theorem cut (around : Around key less same more) : CutBy Prod.fst key (less ++ same) more :=
  ⟨around.le, around.more⟩

theorem widen (around : Around key less same more) (lesser : ∀ record ∈ front, record.1 < key)
    (greater : ∀ record ∈ back, key < record.1) :
    Around key (front ++ less) same (more ++ back) := by
  refine ⟨?_, around.same, ?_⟩
  · intro record member
    rcases List.mem_append.mp member with inFront | inLess
    · exact lesser record inFront
    · exact around.less record inLess
  · intro record member
    rcases List.mem_append.mp member with inMore | inBack
    · exact around.more record inMore
    · exact greater record inBack

/-- Written in its place, a record keeps the order. -/
theorem ascending_write (around : Around key less same more)
    (ascending : Ascending Prod.fst (less ++ same ++ more)) (encoded : Bytes) :
    Ascending Prod.fst (less ++ (key, encoded) :: more) := by
  have others : Ascending Prod.fst (less ++ more) :=
    ascending.sublist (by simp)
  rcases List.pairwise_append.mp others with ⟨before, behind, across⟩
  apply List.pairwise_append.mpr
  refine ⟨before, List.pairwise_cons.mpr ⟨around.more, behind⟩, ?_⟩
  intro left inLess right member
  rcases List.mem_cons.mp member with rfl | inMore
  · exact around.less left inLess
  · exact across left inLess right inMore

/-- The search in a leaf finds the place of a key among its records. -/
theorem find_eq {leaf : Leaf} (around : Around key less same more)
    (holds : leaf.Holds (less ++ same ++ more)) :
    leaf.find key = .ok ⟨(less ++ same).length, decide (same ≠ [])⟩ := by
  rw [holds.find_eq around.cut]
  congr 2
  apply decide_eq_decide.mpr
  rcases around.same with rfl | ⟨encoded, rfl⟩
  · rw [List.append_nil]
    constructor
    · intro found
      cases last : less.getLast? with
      | none =>
          rw [last] at found
          contradiction
      | some record =>
          rw [last] at found
          injection found with key_eq
          have before := around.less record (List.mem_of_getLast? last)
          rw [key_eq] at before
          exact absurd before (List.lt_irrefl _)
    · intro empty
      contradiction
  · simp

end Around

/-- Records stand for a map: each has the value of its key, and every key with a value has one. -/
structure Means (pages : List Page) (records : List Record) (contents : Contents) : Prop where
  decoded : ∀ record ∈ records,
    ∃ value, contents record.1 = some value ∧ Value.Decodes pages record.2 value
  covered : ∀ key value, contents key = some value → ∃ record ∈ records, record.1 = key

namespace Means

variable {pages later : List Page} {records less same more : List Record} {contents : Contents}
  {key : Bytes}

theorem keep (means : Means pages records contents)
    (keeps : Value.KeepsOverflows pages later) : Means later records contents := by
  refine ⟨?_, means.covered⟩
  intro record member
  rcases means.decoded record member with ⟨value, known, decodes⟩
  exact ⟨value, known, decodes.keep keeps⟩

/-- A key between two records next to each other has no value. -/
theorem eq_none (means : Means pages (less ++ [] ++ more) contents)
    (around : Around key less [] more) : contents key = none := by
  cases known : contents key with
  | none => rfl
  | some value =>
      rcases means.covered key value known with ⟨record, member, key_eq⟩
      rw [List.append_nil] at member
      rcases List.mem_append.mp member with inLess | inMore
      · have := around.less record inLess
        rw [key_eq] at this
        exact absurd this (List.lt_irrefl _)
      · have := around.more record inMore
        rw [key_eq] at this
        exact absurd this (List.lt_irrefl _)

theorem eq_some {encoded : Bytes}
    (means : Means pages (less ++ [(key, encoded)] ++ more) contents) :
    ∃ value, contents key = some value ∧ Value.Decodes pages encoded value :=
  means.decoded (key, encoded) (by simp)

theorem isSome_iff (means : Means pages (less ++ same ++ more) contents)
    (around : Around key less same more) : (contents key).isSome = decide (same ≠ []) := by
  rcases around.same with rfl | ⟨encoded, rfl⟩
  · rw [means.eq_none around]
    rfl
  · rcases means.eq_some with ⟨value, known, _⟩
    rw [known]
    rfl

/-- Writing a record gives its key the new value, and no other key another one. -/
theorem write {encoded value : Bytes} (means : Means pages (less ++ same ++ more) contents)
    (around : Around key less same more) (decodes : Value.Decodes pages encoded value) :
    Means pages (less ++ (key, encoded) :: more) (contents.insert key value) := by
  -- No other record has the key, because the keys around it are lesser or greater.
  have others : ∀ record ∈ less ++ more, record.1 ≠ key := by
    intro record member
    rcases List.mem_append.mp member with inLess | inMore
    · have := around.less record inLess
      grind
    · have := around.more record inMore
      grind
  constructor
  · intro record member
    rcases List.mem_append.mp member with inLess | member
    · rw [contents.insert_of_ne value (others record (by simp [inLess]))]
      exact means.decoded record (by simp [inLess])
    · rcases List.mem_cons.mp member with rfl | inMore
      · exact ⟨value, contents.insert_same key value, decodes⟩
      · rw [contents.insert_of_ne value (others record (by simp [inMore]))]
        exact means.decoded record (by simp [inMore])
  · intro other otherValue known
    by_cases different : other = key
    · exact ⟨(key, encoded), by simp, different.symm⟩
    · rw [contents.insert_of_ne value different] at known
      rcases means.covered other otherValue known with ⟨record, member, key_eq⟩
      refine ⟨record, ?_, key_eq⟩
      rcases List.mem_append.mp member with member | inMore
      · rcases List.mem_append.mp member with inLess | inSame
        · simp [inLess]
        · rcases around.same with rfl | ⟨old, rfl⟩
          · contradiction
          · rw [List.mem_singleton.mp inSame] at key_eq
            exact absurd key_eq.symm different
      · simp [inMore]

end Means

end PagedMap
