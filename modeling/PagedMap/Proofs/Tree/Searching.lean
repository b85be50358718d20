import PagedMap.Proofs.Page.LeafLists
import PagedMap.Proofs.Page.NodeLists
import PagedMap.Proofs.Tree.Contents

/-!
# Searches are exact

A search by halving asks about the numbers below its count and about no others. It ends if they are
answered, and where the test holds on a prefix and fails behind it, it finds the length of the
prefix. So a leaf whose keys ascend finds the last key that does not come after a given one, and a
node finds the one child that covers it.
-/

namespace PagedMap

/-! ## What a search asks -/

theorem searchBetween_congr {test other : Nat → Except Fault Bool} {low high : Nat}
    (same : ∀ index, low ≤ index → index < high → other index = test index) :
    searchBetween other low high = searchBetween test low high := by
  fun_induction searchBetween test low high with
  | case1 low high nonempty middle ihUp ihDown =>
      have middle_ge : low ≤ middle := by omega
      have middle_lt : middle < high := by omega
      rw [searchBetween, if_pos nonempty]
      simp only
      rw [same middle middle_ge middle_lt, ihUp fun index ge lt => same index (by omega) lt,
        ihDown fun index ge lt => same index ge (by omega)]
  | case2 low high empty => rw [searchBetween, if_neg empty]

/-- A search asks only between its bounds and ends between them. -/
theorem searchBetween_yields {test : Nat → Except Fault Bool} {low high : Nat}
    (ordered : low ≤ high)
    (answers : ∀ index, low ≤ index → index < high → ∃ passes, test index = .ok passes) :
    Yields (searchBetween test low high) fun found => low ≤ found ∧ found ≤ high := by
  fun_induction searchBetween test low high with
  | case1 low high nonempty middle ihUp ihDown =>
      have middle_ge : low ≤ middle := by omega
      have middle_lt : middle < high := by omega
      rcases answers middle middle_ge middle_lt with ⟨passes, answer⟩
      rw [bind_of_eq_ok answer]
      cases passes with
      | true =>
          apply (ihUp middle_lt fun index ge lt => answers index (by omega) lt).mono
          rintro found ⟨above, below⟩
          exact ⟨by omega, below⟩
      | false =>
          apply (ihDown middle_ge fun index ge lt => answers index ge (by omega)).mono
          rintro found ⟨above, below⟩
          exact ⟨above, by omega⟩
  | case2 low high empty => exact Yields.ok ⟨Nat.le_refl low, ordered⟩

/-- A search depends on what the test says of the numbers below the count, and on nothing else: a
test that does not answer for other numbers is as good. It ends where the test answers, and finds
the length of a prefix. -/
structure SearchesExactly (count : Nat) (test : Nat → Except Fault Bool) : Prop where
  confined (other : Nat → Except Fault Bool) (same : ∀ index < count, other index = test index) :
    search count other = search count test
  ends (answers : ∀ index < count, ∃ passes, test index = .ok passes) :
    Yields (search count test) fun found => found ≤ count
  finds (boundary : Nat) (below : boundary ≤ count)
    (answers : ∀ index < count, test index = .ok (decide (index < boundary))) :
    search count test = .ok boundary

theorem searchesExactly (count : Nat) (test : Nat → Except Fault Bool) :
    SearchesExactly count test where
  confined _ same := searchBetween_congr fun index _ lt => same index lt
  ends answers := by
    apply (searchBetween_yields (Nat.zero_le count) fun index _ lt => answers index lt).mono
    exact fun _ bounds => bounds.2
  finds _ below answers := search_eq below answers

/-! ## Leaves -/

/-- A record of the key is among the records just if there is one between the lesser and the greater
keys. -/
theorem Around.exists_key_iff {key : Bytes} {less same more : List Record}
    (around : Around key less same more) :
    (∃ record ∈ less ++ same ++ more, record.1 = key) ↔ same ≠ [] := by
  constructor
  · rintro ⟨record, member, rfl⟩ rfl
    rw [List.append_nil] at member
    rcases List.mem_append.mp member with inLess | inMore
    · exact List.lt_irrefl _ (around.less record inLess)
    · exact List.lt_irrefl _ (around.more record inMore)
  · intro nonempty
    rcases around.same with rfl | ⟨encoded, rfl⟩
    · contradiction
    · exact ⟨(key, encoded), by simp, rfl⟩

namespace Leaf

variable {leaf : Leaf} {records : List Record} {key : Bytes} {place : Place}

/-- The place of a key: behind it lie just the keys that come after the key, so that the last one
before it is the greatest that does not. A new record goes there and keeps the keys ascending. -/
structure Locates (leaf : Leaf) (records : List Record) (key : Bytes) (place : Place) : Prop where
  below_le : place.below ≤ records.length
  le_iff : ∀ index (inside : index < records.length),
    records[index].1 ≤ key ↔ index < place.below
  exact_iff : place.exact = true ↔ ∃ record ∈ records, record.1 = key
  ascending (absent : place.exact = false) (value : Bytes) :
    Ascending Prod.fst (records.insertIdx place.below (key, value))
  insert (absent : place.exact = false) (value : Bytes) :
    YieldsWhere (Room (records.insertIdx place.below (key, value)))
      (leaf.insert place.below key value) fun changed =>
        changed.Holds (records.insertIdx place.below (key, value))

/-- A key is found in a leaf if it is there, and otherwise the place where it belongs. -/
theorem Holds.find_locates (holds : leaf.Holds records) (ascending : Ascending Prod.fst records)
    (key : Bytes) : Yields (leaf.find key) (leaf.Locates records key) := by
  rcases Around.exists_of_ascending ascending key with ⟨less, same, more, rfl, around⟩
  refine ⟨_, around.find_eq holds, ?_⟩
  have inside : (less ++ same).length ≤ (less ++ same ++ more).length := by simp
  refine ⟨inside, fun index within => around.cut.le_iff within, ?_, ?_, ?_⟩
  · rw [around.exists_key_iff, decide_eq_true_iff]
  · intro absent value
    have none : same = [] := by simpa using absent
    rw [insertIdx_append]
    subst none
    simpa using around.ascending_write ascending value
  · intro _ value
    have inserts := holds.insertIdx_yieldsWhere (less ++ same).length key value
    apply (inserts.congr (and_iff_right inside).symm).mono
    exact fun _ changed => changed.1

end Leaf

/-! ## Nodes -/

namespace Node

variable {node : Node} {keys : List Bytes} {children : List PageIndex} {key : Bytes}

/-- The child at an index covers a key: the key at the index, if it is not the leftmost child's,
does not come after the key, and the next one, if there is one, does. -/
structure Covers (keys : List Bytes) (key : Bytes) (index : Int) : Prop where
  lower : -1 ≤ index
  upper : index < keys.length
  le : ∀ position (inside : position < keys.length), (position : Int) = index →
    keys[position] ≤ key
  lt : ∀ position (inside : position < keys.length), (position : Int) = index + 1 →
    key < keys[position]

/-- Among ascending keys, the child that covers a key is the one behind all that do not come after
it. -/
theorem covers_iff {low high : List Bytes} (cut : CutBy id key low high) {index : Int} :
    Covers (low ++ high) key index ↔ index = (low.length : Int) - 1 := by
  have le_iff : ∀ position (inside : position < (low ++ high).length),
      (low ++ high)[position] ≤ key ↔ position < low.length := fun _ inside => cut.le_iff inside
  have length_low : low.length ≤ (low ++ high).length := by simp
  constructor
  · rintro ⟨lower, upper, le, lt⟩
    apply Int.le_antisymm
    · by_cases leftmost : index = -1
      · omega
      · have before := (le_iff index.toNat (by omega)).mp (le _ (by omega) (by omega))
        omega
    · by_cases last : index + 1 < (low ++ high).length
      · have after := lt (index + 1).toNat (by omega) (by omega)
        have behind : ¬ (index + 1).toNat < low.length := by
          rw [← le_iff _ (by omega)]
          exact List.not_le.mpr after
        omega
      · omega
  · rintro rfl
    refine ⟨by omega, by omega, ?_, ?_⟩
    · intro position inside position_eq
      exact (le_iff position inside).mpr (by omega)
    · intro position inside position_eq
      have behind : ¬ (low ++ high)[position] ≤ key := by
        rw [le_iff position inside]
        omega
      exact List.not_le.mp behind

theorem Holds.route_covers (holds : node.Holds keys children) (ascending : Ascending id keys)
    (key : Bytes) :
    Yields (node.route key) fun index =>
      Covers keys key index ∧ ∀ other, Covers keys key other → other = index := by
  rcases ascending.exists_cut key with ⟨low, high, rfl, cut⟩
  refine ⟨_, holds.route_eq cut, (covers_iff cut).mpr rfl, ?_⟩
  exact fun other covers => (covers_iff cut).mp covers

end Node

/-- Searching is exact: for tests on numbers, for the keys of a leaf and for the children of a
node. -/
theorem searches_exact :
    (∀ count test, SearchesExactly count test) ∧
    (∀ (leaf : Leaf) (records : List Record), leaf.Holds records →
      Ascending Prod.fst records → ∀ key, Yields (leaf.find key) (leaf.Locates records key)) ∧
    ∀ (node : Node) (keys : List Bytes) (children : List PageIndex), node.Holds keys children →
      Ascending id keys → ∀ key, Yields (node.route key) fun index =>
        Node.Covers keys key index ∧ ∀ other, Node.Covers keys key other → other = index :=
  ⟨searchesExactly, fun _ _ holds ascending => holds.find_locates ascending,
    fun _ _ _ holds ascending => holds.route_covers ascending⟩

/-- Keys that begin with each other, the empty one among them, are told apart. -/
theorem searches_exact_nested :
    ∃ (leaf : Leaf) (node : Node),
      leaf.Holds [([], []), ([1], []), ([1, 0], [])] ∧
      node.Holds [[], [1], [1, 0]] [10, 11, 12, 13] ∧
      Yields (leaf.find [1]) (leaf.Locates [([], []), ([1], []), ([1, 0], [])] [1]) ∧
      Yields (node.route [1]) (· = 1) := by
  have leafRoom : Leaf.Room [([], []), ([1], []), ([1, 0], [])] := ⟨by decide, by decide⟩
  have nodeRoom : Node.Room [[], [1], [1, 0]] := ⟨by decide, by decide⟩
  have arity : [10, 11, 12, (13 : PageIndex)].length = [[], [(1 : UInt8)], [1, 0]].length + 1 := rfl
  rcases Leaf.exists_built_of_room 0 leafRoom with ⟨leaf, _, leafHolds, _⟩
  rcases Node.exists_built_of_room nodeRoom arity with ⟨node, _, nodeHolds⟩
  have records : Ascending Prod.fst ([([], []), ([1], []), ([1, 0], [])] : List Record) := by
    rw [Ascending]
    decide
  have keys : Ascending id ([[], [1], [1, 0]] : List Bytes) := by
    rw [Ascending]
    decide
  rcases searches_exact with ⟨_, finds, routes⟩
  refine ⟨leaf, node, leafHolds, nodeHolds, finds leaf _ leafHolds records [1], ?_⟩
  apply (routes node _ _ nodeHolds keys [1]).mono
  rintro index ⟨_, unique⟩
  exact (unique 1 ⟨by decide, by decide, by decide, by decide⟩).symm

end PagedMap
