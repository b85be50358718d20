import PagedMap.Proofs.Tree.Dividing
import PagedMap.Proofs.Tree.Partings

/-!
# Separators on their way up

When a leaf is split, a separator goes to the node above it. A node that has room takes it. A node
that has none is split as well, and the key between its two parts goes on to the next node. How far
a separator gets, and which key arrives there, depends on the record that is written and on the
pages on the way, as they were before.
-/

namespace PagedMap

/-! ## Nodes that get a separator -/

namespace Step

/-- The keys of the node of a step, and these with a separator at its place, right of the child by
which the way goes on. -/
structure Takes (step : Step) (separator : Bytes) (keys wider : List Bytes) : Prop where
  keys_eq : step.node.keys = .ok keys
  wider_eq : wider = keys.insertIdx (step.taken + 1).toNat separator

/-- The node of a step has no room for a separator: it has as many keys as a node may get, or they
would not fit on its page together with the separator. -/
def Crowded (maxEntries : Nat) (step : Step) (separator : Bytes) : Prop :=
  ∃ keys wider, step.Takes separator keys wider ∧
    (maxEntries ≤ keys.length ∨ nodeCapacity < Node.load wider)

/-- The key that moves up if the node of a step is split to take a separator. -/
def Promotes (step : Step) (separator higher : Bytes) : Prop :=
  ∃ keys wider midpoint half, step.Takes separator keys wider ∧
    step.node.midpoint = .ok midpoint ∧
    splitPoint keys.length (decide (nodeCapacity < Node.load wider)) midpoint = .ok half ∧
    wider[half]? = some higher

variable {step : Step} {separator higher : Bytes} {keys wider : List Bytes} {maxEntries : Nat}

theorem Takes.unique {otherKeys otherWider : List Bytes} (takes : step.Takes separator keys wider)
    (others : step.Takes separator otherKeys otherWider) :
    otherKeys = keys ∧ otherWider = wider := by
  have same := others.keys_eq.symm.trans takes.keys_eq
  injection same with same
  exact ⟨same, by rw [others.wider_eq, takes.wider_eq, same]⟩

theorem Takes.crowded_iff (takes : step.Takes separator keys wider) :
    step.Crowded maxEntries separator ↔
      maxEntries ≤ keys.length ∨ nodeCapacity < Node.load wider := by
  constructor
  · rintro ⟨_, _, others, full⟩
    rcases takes.unique others with ⟨rfl, rfl⟩
    exact full
  · exact fun full => ⟨keys, wider, takes, full⟩

/-- It is determined which key a full node hands up. -/
theorem Promotes.unique {other : Bytes} (promotes : step.Promotes separator higher)
    (otherwise : step.Promotes separator other) : other = higher := by
  rcases promotes with ⟨keys, wider, midpoint, half, takes, found, halves, higher_eq⟩
  rcases otherwise with ⟨_, _, _, _, others, otherFound, otherHalves, other_eq⟩
  rcases takes.unique others with ⟨rfl, rfl⟩
  rw [found] at otherFound
  injection otherFound with same
  rw [← same, halves] at otherHalves
  injection otherHalves with same
  rw [← same, higher_eq] at other_eq
  injection other_eq with same
  exact same.symm

section

variable {near far : List Link} {link : Link} {node : Node}
  (linksTo : step.node.LinksTo (near ++ far)) (nonempty : near ≠ [])
  (taken_eq : step.taken = (near.length : Int) - 2)

include linksTo nonempty taken_eq

theorem takes_of_linksTo (link : Link) :
    step.Takes link.low ((near ++ far).tail.map Link.low)
      ((near ++ link :: far).tail.map Link.low) := by
  have positive := List.length_pos_iff.mpr nonempty
  have place : (step.taken + 1).toNat = (near.tail.map Link.low).length := by
    rw [List.length_map, List.length_tail]
    omega
  refine ⟨linksTo.keys_eq, ?_⟩
  rw [place, List.tail_append_of_ne_nil nonempty, List.tail_append_of_ne_nil nonempty,
    List.map_append, List.map_append, List.map_cons, insertIdx_append]

theorem crowded_iff_of_linksTo (link : Link) :
    step.Crowded maxEntries link.low ↔ maxEntries ≤ step.node.count ∨
      nodeCapacity < Node.load ((near ++ link :: far).tail.map Link.low) := by
  rw [(takes_of_linksTo linksTo nonempty taken_eq link).crowded_iff, List.length_map,
    List.length_tail, linksTo.length_eq, Nat.add_sub_cancel]

/-- Of the pages that a node links to, the first one of the upper part has the key that moves up. -/
theorem promotes_of_parted {lower upper : List Link} {midpoint half : Nat}
    (found : step.node.midpoint = .ok midpoint)
    (halves : splitPoint step.node.count
      (decide (nodeCapacity < Node.load ((near ++ link :: far).tail.map Link.low))) midpoint =
        .ok half)
    (links_eq : near ++ link :: far = lower ++ upper) (length_lower : lower.length = half + 1)
    (upperNonempty : upper ≠ []) : step.Promotes link.low (Node.lowOf upper) := by
  refine ⟨_, _, midpoint, half, takes_of_linksTo linksTo nonempty taken_eq link, found, ?_, ?_⟩
  · rw [List.length_map, List.length_tail, linksTo.length_eq]
    exact halves
  · rcases List.exists_cons_of_ne_nil upperNonempty with ⟨head, rest, rfl⟩
    have place : half = (lower.tail.map Link.low).length := by
      rw [List.length_map, List.length_tail, length_lower, Nat.add_sub_cancel]
    have lowerNonempty : lower ≠ [] := List.length_pos_iff.mp (by omega)
    rw [links_eq, List.tail_append_of_ne_nil lowerNonempty, List.map_append, place,
      List.getElem?_append_right (Nat.le_refl _), Nat.sub_self]
    rfl

/-- A crowded node is split, whichever pages its children are, and passes a key on. -/
theorem Crowded.exists_part (crowded : step.Crowded maxEntries link.low)
    (nodeLinks : node.LinksTo (near ++ far)) (several : 2 ≤ maxEntries)
    (small : ∀ other ∈ near ++ link :: far, other.low.length ≤ maxKeySize) :
    ∃ midpoint half lower upper, node.midpoint = .ok midpoint ∧
      splitPoint node.count
        (decide (nodeCapacity < Node.load ((near ++ link :: far).tail.map Link.low))) midpoint =
          .ok half ∧
      2 ≤ lower.length ∧ 2 ≤ upper.length ∧ step.Promotes link.low (Node.lowOf upper) ∧
      Yields (node.split (near.length - 1) link.low link.index half)
        (Node.PartedAs (near ++ link :: far) lower upper) := by
  have count_eq : node.count = step.node.count :=
    Nat.succ.inj (nodeLinks.length_eq.symm.trans linksTo.length_eq)
  have many : decide (nodeCapacity < Node.load ((near ++ link :: far).tail.map Link.low)) = false →
      2 ≤ node.count := by
    intro fits
    have full := (crowded_iff_of_linksTo linksTo nonempty taken_eq link).mp crowded
    have few := full.resolve_right (of_decide_eq_false fits)
    omega
  rcases nodeLinks.exists_part nonempty small rfl many with
    ⟨midpoint, half, lower, upper, found, halves, length_lower, lowerSeveral, upperSeveral, parts⟩
  refine ⟨midpoint, half, lower, upper, found, halves, lowerSeveral, upperSeveral, ?_, parts⟩
  rcases parts with ⟨sides, _, parted⟩
  have upperNonempty : upper ≠ [] := List.length_pos_iff.mp (by omega)
  rw [nodeLinks.midpoint_eq_of_keys linksTo] at found
  rw [count_eq] at halves
  exact promotes_of_parted linksTo nonempty taken_eq found halves parted.links_eq length_lower
    upperNonempty

end

end Step

/-! ## Ways up -/

/-- A separator that comes from below gets through nodes without room. Each of them is split to take
the separator, and passes on the key between its parts; the last key gets past all of them. -/
inductive Lifts (maxEntries : Nat) : List Step → Bytes → Bytes → Prop
  | arrived (separator : Bytes) : Lifts maxEntries [] separator separator
  | through {step : Step} {path : List Step} {separator higher last : Bytes}
      (crowded : step.Crowded maxEntries separator) (promotes : step.Promotes separator higher)
      (further : Lifts maxEntries path higher last) :
      Lifts maxEntries (step :: path) separator last

/-- Every node that a separator got past was full. -/
theorem Lifts.crowded {maxEntries : Nat} {below above : List Step} {step : Step}
    {separator last top : Bytes} (lifts : Lifts maxEntries below separator last)
    (all : Lifts maxEntries (below ++ step :: above) separator top) :
    step.Crowded maxEntries last := by
  induction lifts with
  | arrived separator =>
      cases all with
      | through crowded _ _ => exact crowded
  | through _ promotes _ ih =>
      cases all with
      | through _ otherwise further =>
          rw [otherwise.unique promotes] at ih
          exact ih further

theorem Lifts.unique {maxEntries : Nat} {path : List Step} {separator last other : Bytes}
    (lifts : Lifts maxEntries path separator last) (again : Lifts maxEntries path separator other) :
    other = last := by
  induction lifts with
  | arrived separator =>
      cases again with
      | arrived => rfl
  | through _ promotes _ ih =>
      cases again with
      | through _ otherwise further =>
          rw [otherwise.unique promotes] at ih
          exact ih further

/-! ## Leaves that give a separator -/

namespace Descent

/-- A record does not fit into the leaf where a search ended: there are not enough bytes, or there
would be a record more than a leaf may get. -/
def Overflows (maxEntries : Nat) (found : Descent) (record : Record) : Prop :=
  ∃ old, found.leaf.entries = .ok old ∧
    (leafCapacity < Leaf.load (writeRecord record old) ∨
      old.length < (writeRecord record old).length ∧
        maxEntries < (writeRecord record old).length)

/-- The separator that a leaf gives if it is split to write a record: the first key of the leaf to
the right. -/
def Separates (found : Descent) (record : Record) (separator : Bytes) : Prop :=
  ∃ old place midpoint half sides, found.leaf.entries = .ok old ∧
    found.leaf.find record.1 = .ok place ∧ found.leaf.midpoint = .ok midpoint ∧
    splitPoint found.leaf.count (decide (leafCapacity < Leaf.load (writeRecord record old)))
      midpoint = .ok half ∧
    found.leaf.split place record.1 record.2 half = .ok sides ∧ sides.2.key 0 = .ok separator

variable {found : Descent} {record : Record} {separator other : Bytes}

section

variable {key : Bytes} {less same more : List Record}
  (holds : found.leaf.Holds (less ++ same ++ more)) (around : Around key less same more)

include holds around

/-- An entry overflows a leaf for want of bytes, or by being one record too many. -/
theorem overflows_iff (maxEntries : Nat) (encoded : Bytes) : found.Overflows maxEntries (key, encoded) ↔
    leafCapacity < Leaf.load (less ++ (key, encoded) :: more) ∨
      same = [] ∧ maxEntries < found.leaf.count + 1 := by
  have written := around.writeRecord_eq encoded
  have count_eq := holds.count_eq
  have grows : (less ++ same ++ more).length < (less ++ (key, encoded) :: more).length ↔
      same = [] := by
    rw [← List.length_eq_zero_iff]
    simp only [List.length_append, List.length_cons]
    omega
  constructor
  · rintro ⟨old, entries, full⟩
    cases holds.entries_eq.symm.trans entries
    rw [written, grows] at full
    apply full.imp_right
    rintro ⟨rfl, many⟩
    rw [List.append_nil, List.length_append] at count_eq
    rw [List.length_append, List.length_cons] at many
    exact ⟨rfl, by omega⟩
  · intro full
    refine ⟨_, holds.entries_eq, ?_⟩
    rw [written, grows]
    apply full.imp_right
    rintro ⟨rfl, many⟩
    rw [List.append_nil, List.length_append] at count_eq
    rw [List.length_append, List.length_cons]
    exact ⟨rfl, by omega⟩

theorem separates_of_split {encoded : Bytes} {place : Place} {midpoint half : Nat} {sides : Leaf × Leaf}
    (finds : found.leaf.find key = .ok place) (halfway : found.leaf.midpoint = .ok midpoint)
    (halves : splitPoint found.leaf.count
      (decide (leafCapacity < Leaf.load (less ++ (key, encoded) :: more))) midpoint = .ok half)
    (splits : found.leaf.split place key encoded half = .ok sides)
    (first : sides.2.key 0 = .ok separator) : found.Separates (key, encoded) separator := by
  refine ⟨_, place, midpoint, half, sides, holds.entries_eq, finds, halfway, ?_, splits, first⟩
  rw [around.writeRecord_eq encoded]
  exact halves

end

/-- A leaf and a record determine the separator between the halves. -/
theorem Separates.unique (separates : found.Separates record separator)
    (otherwise : found.Separates record other) : other = separator := by
  rcases separates with
    ⟨old, place, midpoint, half, sides, entries, finds, halfway, halves, splits, first⟩
  rcases otherwise with ⟨_, _, _, _, _, same, finds', halfway', halves', splits', first'⟩
  cases entries.symm.trans same
  cases finds.symm.trans finds'
  cases halfway.symm.trans halfway'
  cases halves.symm.trans halves'
  cases splits.symm.trans splits'
  cases first.symm.trans first'
  rfl

end Descent

end PagedMap
