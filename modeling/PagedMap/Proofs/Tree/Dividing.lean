import PagedMap.Proofs.Page.LeafLists
import PagedMap.Proofs.Page.LeafSplits
import PagedMap.Proofs.Tree.Contents

/-!
# Dividing leaves

A record is written among records whose keys ascend at the place of its key. Where a leaf has no
room for the record, or holds as many records as it may, it is split, and the two leaves together
hold the records with the new one. Every key on the left comes before the first one on the right, so
that this one can be told to the nodes above.
-/

namespace PagedMap

variable {leaf : Leaf} {key encoded : Bytes} {old less same more lower upper : List Record}
  {record : Record} {lacksBytes : Bool}

/-- Records with a further one: it comes behind the records with lesser keys and before those with
greater ones, in place of the one with its key. -/
def writeRecord (record : Record) (records : List Record) : List Record :=
  records.filter (fun other => other.1 < record.1) ++
    record :: records.filter (fun other => record.1 < other.1)

/-- A record is written between the records with lesser and with greater keys, in the place of the
one with its key. -/
theorem Around.writeRecord_eq (around : Around key less same more) (encoded : Bytes) :
    writeRecord (key, encoded) (less ++ same ++ more) = less ++ (key, encoded) :: more := by
  have notLess : ∀ other ∈ same ++ more, ¬other.1 < key := by
    intro other member
    rcases List.mem_append.mp member with inSame | inMore
    · rcases around.same with rfl | ⟨_, rfl⟩
      · contradiction
      · rw [List.mem_singleton.mp inSame]
        exact List.lt_irrefl _
    · exact List.lt_asymm (around.more other inMore)
  have notMore : ∀ other ∈ less ++ same, ¬key < other.1 :=
    fun other member => List.not_lt.mpr (around.le other member)
  have lesser : (less ++ same ++ more).filter (fun other => other.1 < key) = less := by
    rw [List.append_assoc, List.filter_append, List.filter_eq_self.mpr (by simpa using around.less),
      List.filter_eq_nil_iff.mpr (by simpa using notLess), List.append_nil]
  have greater : (less ++ same ++ more).filter (fun other => key < other.1) = more := by
    rw [List.filter_append, List.filter_eq_nil_iff.mpr (by simpa using notMore),
      List.filter_eq_self.mpr (by simpa using around.more), List.nil_append]
  rw [writeRecord, lesser, greater]

namespace Leaf

/-- What is read from the two leaves that a leaf was divided into when a record was written. -/
structure DividedBy (leaf : Leaf) (old : List Record) (record : Record) (lacksBytes : Bool)
    (lower upper : List Record) (sides : Leaf × Leaf) : Prop where
  left_eq : sides.1.entries = .ok lower
  right_eq : sides.2.entries = .ok upper
  together : lower ++ upper = writeRecord record old
  lowerFilled : lower ≠ []
  upperFilled : upper ≠ []
  lowerFew : lower.length ≤ leaf.count
  upperFew : upper.length ≤ leaf.count
  left_used : sides.1.used ≤ leafCapacity
  right_used : sides.2.used ≤ leafCapacity
  separates : ∃ separator, sides.2.key 0 = .ok separator ∧ ∀ other ∈ lower, other.1 < separator
  next_eq : sides.2.next = leaf.next
  shared : lacksBytes = true → Shares old lower ∧ Shares old upper

/-- Two leaves that divide the records as they are written divide those from before with the new one
among them. -/
theorem DividedAs.dividedBy {records : List Record} {sides : Leaf × Leaf}
    (divided : leaf.DividedAs records lower upper sides) (ascending : Ascending Prod.fst records)
    (records_eq : writeRecord record old = records)
    (shares : lacksBytes = true → Shares old lower ∧ Shares old upper) :
    leaf.DividedBy old record lacksBytes lower upper sides := by
  rcases List.exists_cons_of_ne_nil divided.upperFilled with ⟨head, rest, rfl⟩
  have rightHolds : sides.2.Holds ([] ++ head :: rest) := divided.right
  rw [divided.records_eq] at ascending records_eq
  refine ⟨divided.left.entries_eq, divided.right.entries_eq, records_eq.symm, divided.lowerFilled,
    divided.upperFilled, divided.lowerFew, divided.upperFew, ?_, ?_, ⟨head.1, rightHolds.key_eq, ?_⟩,
    divided.rightNext, shares⟩
  · rw [divided.left.used_eq]
    exact divided.left.fits
  · rw [divided.right.used_eq]
    exact divided.right.fits
  · intro other member
    exact (List.pairwise_append.mp ascending).2.2 other member head List.mem_cons_self

/-- Whether a leaf has no room for an entry at its place. -/
def lacksBytesFor (leaf : Leaf) (place : Place) (key encoded : Bytes) : Except Fault Bool :=
  if place.exact then leaf.overflowsWithValue (place.below - 1) encoded.length
  else leaf.overflowsWith key.length encoded.length

theorem Divides.exists_split {place : Place} {records : List Record}
    (divides : leaf.Divides place (key, encoded) lacksBytes old records)
    (ascending : Ascending Prod.fst records) (records_eq : writeRecord (key, encoded) old = records) :
    ∃ midpoint half, leaf.midpoint = .ok midpoint ∧
      splitPoint leaf.count lacksBytes midpoint = .ok half ∧
      Yields (leaf.split place key encoded half) fun sides =>
        ∃ lower upper, leaf.DividedBy old (key, encoded) lacksBytes lower upper sides := by
  rcases divides with ⟨midpoint, half, lower, upper, found, halves, shares, splits⟩
  refine ⟨midpoint, half, found, halves, splits.mono ?_⟩
  exact fun sides divided => ⟨lower, upper, divided.dividedBy ascending records_eq shares⟩

section

variable {value : Bytes} (smallNew : recordSize (key, encoded) ≤ maxInlineEntry)
include smallNew

/-- A leaf without room for a new record can be split with it, if it has two records or the bytes
are what is lacking. -/
theorem Holds.divides_new (holds : leaf.Holds (less ++ more))
    (small : ∀ record ∈ less ++ more, recordSize record ≤ maxInlineEntry) :
    ∃ lacksBytes, leaf.lacksBytesFor ⟨less.length, false⟩ key encoded = .ok lacksBytes ∧
      (lacksBytes = true ∨ 2 ≤ leaf.count →
        leaf.Divides ⟨less.length, false⟩ (key, encoded) lacksBytes (less ++ more)
          (less ++ (key, encoded) :: more)) := by
  have tiny : recordSize (key, encoded) < 0x1000000000000000 :=
    Nat.lt_of_le_of_lt smallNew (by decide)
  refine ⟨_, holds.overflowsWith_record (key, encoded) tiny, ?_⟩
  intro full
  apply holds.divides_insert _ rfl
  · intro fits
    rcases full with lacks | crowded
    · rw [fits] at lacks
      contradiction
    · exact crowded
  · exact forall_mem_insert.mpr ⟨smallNew, small⟩

theorem Holds.divides_known (holds : leaf.Holds (less ++ (key, value) :: more))
    (small : ∀ record ∈ less ++ (key, value) :: more, recordSize record ≤ maxInlineEntry) :
    ∃ lacksBytes, leaf.lacksBytesFor ⟨less.length + 1, true⟩ key encoded = .ok lacksBytes ∧
      (lacksBytes = true →
        leaf.Divides ⟨less.length + 1, true⟩ (key, encoded) lacksBytes
          (less ++ (key, value) :: more) (less ++ (key, encoded) :: more)) := by
  have tiny : encoded.length < 0x1000000000000000 :=
    Nat.lt_of_le_of_lt (Nat.le_trans (Nat.le_add_left ..) smallNew) (by decide)
  refine ⟨_, holds.overflowsWithValue_eq encoded tiny, ?_⟩
  intro lacks
  rw [lacks]
  exact holds.divides_setValue small smallNew (of_decide_eq_true lacks)

end

/-- A leaf that lacks bytes for an entry, or has as many entries as it may when a further one comes,
is split into two that have the entries with this one, as they are to be. -/
theorem split_divides (holds : leaf.Holds old) (ascending : Ascending Prod.fst old)
    (small : ∀ record ∈ old, recordSize record ≤ maxInlineEntry)
    (smallNew : recordSize (key, encoded) ≤ maxInlineEntry) {maxEntries : Nat}
    (several : 3 ≤ maxEntries) :
    ∃ place lacksBytes, leaf.find key = .ok place ∧
      leaf.lacksBytesFor place key encoded = .ok lacksBytes ∧
      (lacksBytes = true ∨ place.exact = false ∧ maxEntries ≤ leaf.count →
        ∃ midpoint half, leaf.midpoint = .ok midpoint ∧
          splitPoint leaf.count lacksBytes midpoint = .ok half ∧
          Yields (leaf.split place key encoded half) fun sides =>
            ∃ lower upper, leaf.DividedBy old (key, encoded) lacksBytes lower upper sides) := by
  rcases Around.exists_of_ascending ascending key with ⟨less, same, more, rfl, around⟩
  have found := around.find_eq holds
  have written := around.ascending_write ascending encoded
  have records_eq := around.writeRecord_eq encoded
  rcases around.same with rfl | ⟨value, rfl⟩
  · simp only [List.append_nil] at holds small found records_eq ⊢
    rcases holds.divides_new smallNew small with ⟨lacksBytes, answers, divides⟩
    refine ⟨_, lacksBytes, found, answers, ?_⟩
    intro full
    have many : lacksBytes = true ∨ 2 ≤ leaf.count := by
      rcases full with lacks | ⟨_, crowded⟩
      · exact Or.inl lacks
      · exact Or.inr (by omega)
    exact (divides many).exists_split written records_eq
  · simp only [List.append_assoc, List.singleton_append] at holds small records_eq ⊢
    rcases holds.divides_known smallNew small with ⟨lacksBytes, answers, divides⟩
    have place : (less ++ [(key, value)]).length = less.length + 1 := by simp
    rw [place] at found
    refine ⟨_, lacksBytes, found, answers, ?_⟩
    intro full
    have lacks : lacksBytes = true := by
      rcases full with lacks | ⟨new, _⟩
      · exact lacks
      · contradiction
    exact (divides lacks).exists_split written records_eq

theorem split_divides_crowded :
    ∃ leaf : Leaf, leaf.Holds [([1], []), ([2], []), ([3], [])] ∧
      ∃ lacksBytes half, Yields (leaf.split ⟨3, false⟩ [4] [] half) fun sides =>
        ∃ lower upper, leaf.DividedBy [([1], []), ([2], []), ([3], [])] ([4], []) lacksBytes lower
          upper sides := by
  have room : Room [([1], []), ([2], []), ([3], [])] := ⟨by decide, by decide⟩
  rcases exists_built_of_room 0 room with ⟨leaf, _, holds, _⟩
  have ascending : Ascending Prod.fst ([([1], []), ([2], []), ([3], [])] : List Record) := by
    rw [Ascending]
    decide
  have smallNew : recordSize ([4], []) ≤ maxInlineEntry := by decide
  have around : Around [4] ([([1], []), ([2], []), ([3], [])] : List Record) [] [] :=
    ⟨by decide, Or.inl rfl, by decide⟩
  rcases split_divides holds ascending (by decide) smallNew (Nat.le_refl 3) with
    ⟨place, lacksBytes, found, _, divides⟩
  rw [around.find_eq holds] at found
  cases found
  rcases divides (Or.inr ⟨rfl, by rw [holds.count_eq]; decide⟩) with ⟨_, half, _, _, splits⟩
  exact ⟨leaf, holds, lacksBytes, half, splits⟩

end Leaf

end PagedMap
