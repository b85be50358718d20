import PagedMap.Proofs.Page.NodeSplits
import PagedMap.Proofs.Tree.Descents

/-!
# Nodes that get a further child

A node gets a further page to link to, right of one of its children. If there is no room for it, the
row of pages that the node links to is parted in two. The node keeps the first part, a new node gets
the second one, and the least key of the second part moves up.
-/

namespace PagedMap

namespace Node

variable {node : Node} {links near far lower upper : List Link} {link : Link} {child : PageIndex}
  {half : Nat}

/-- A node links to a row of pages: its keys are the least keys of all of them but the first. -/
def LinksTo (node : Node) (links : List Link) : Prop :=
  node.Holds (links.tail.map Link.low) (links.map Link.index)

/-- The least key of the first page of a row. -/
def lowOf (links : List Link) : Bytes := (links.head?.map Link.low).getD []

/-- The pages that a node links to are parted between the two nodes of a split. -/
structure PartedAs (links lower upper : List Link) (sides : NodeSplit) : Prop where
  links_eq : links = lower ++ upper
  left : sides.left.LinksTo lower
  separator_eq : sides.separator = lowOf upper
  right : sides.right.LinksTo upper

theorem single_linksTo (link : Link) : (single link.index).LinksTo [link] :=
  single_holds link.index

theorem lowOf_append (nonempty : near ≠ []) : lowOf (near ++ far) = lowOf near := by
  rcases List.exists_cons_of_ne_nil nonempty with ⟨first, rest, rfl⟩
  rfl

theorem exists_low (nonempty : links ≠ []) : ∃ link ∈ links, lowOf links = link.low := by
  rcases List.exists_cons_of_ne_nil nonempty with ⟨first, rest, rfl⟩
  exact ⟨first, List.mem_cons_self, rfl⟩

namespace LinksTo

theorem length_eq (linksTo : node.LinksTo links) : links.length = node.count + 1 := by
  have arity := linksTo.arity
  rw [List.length_map] at arity
  rw [arity, linksTo.count_eq]

theorem setChild_yields (linksTo : node.LinksTo (near ++ far)) (ends : EndsAt near child) :
    Yields (node.setChild ((near.length : Int) - 2) child) fun changed =>
      changed.LinksTo (near ++ far) := by
  rcases ends with ⟨most, low, rfl⟩
  have indices_eq : (most ++ [Link.mk low child] ++ far).map Link.index =
      most.map Link.index ++ child :: far.map Link.index := by
    simp
  simp only [LinksTo] at linksTo ⊢
  rw [indices_eq] at linksTo ⊢
  apply linksTo.setChild_yields
  simp only [List.length_append, List.length_map, List.length_singleton]
  omega

section

variable (linksTo : node.LinksTo (near ++ far)) (nonempty : near ≠ [])
include linksTo nonempty

theorem holds_cut :
    node.Holds (near.tail.map Link.low ++ far.map Link.low)
      (near.map Link.index ++ far.map Link.index) := by
  simp only [LinksTo] at linksTo
  rw [List.tail_append_of_ne_nil nonempty, List.map_append, List.map_append] at linksTo
  exact linksTo

omit linksTo in
theorem aligned : (near.map Link.index).length = (near.tail.map Link.low).length + 1 := by
  have := List.length_pos_iff.mpr nonempty
  simp only [List.length_map, List.length_tail]
  omega

omit linksTo in
theorem lows_cut : near.tail.map Link.low ++ link.low :: far.map Link.low =
    (near ++ link :: far).tail.map Link.low := by
  rw [List.tail_append_of_ne_nil nonempty, List.map_append, List.map_cons]

theorem overflowsWith_eq (small : link.low.length ≤ maxKeySize) :
    node.overflowsWith link.low.length =
      .ok (decide (nodeCapacity < load ((near ++ link :: far).tail.map Link.low))) := by
  have bounded : link.low.length < 0x1000000000000000 :=
    Nat.lt_of_le_of_lt small (by decide)
  rw [(holds_cut linksTo nonempty).overflowsWith_eq link.low bounded, lows_cut nonempty]

/-- A link that is new is put in behind those it follows, with its least key as the key between. -/
theorem insert_yields (few : node.count + 1 < 256)
    (fits : load ((near ++ link :: far).tail.map Link.low) ≤ nodeCapacity) :
    Yields (node.insert (near.length - 1) link.low link.index) fun changed =>
      changed.LinksTo (near ++ link :: far) := by
  have holds := holds_cut linksTo nonempty
  have place : near.length - 1 = (near.tail.map Link.low).length := by
    rw [List.length_map, List.length_tail]
  rw [← lows_cut nonempty] at fits
  rw [place]
  have longer : (near.tail.map Link.low ++ link.low :: far.map Link.low).length < 256 := by
    have count_eq := holds.count_eq
    simp only [List.length_append, List.length_cons] at count_eq ⊢
    omega
  apply (holds.insert_yields (aligned nonempty) longer fits).mono
  intro changed changedHolds
  simp only [LinksTo]
  rw [← lows_cut nonempty, List.map_append, List.map_cons]
  exact changedHolds

/-- A node that is split links to the old row with the new link in it, one part of it from each
half. -/
theorem part_yields (inside : half < node.count)
    (fitsLeft : load (((near ++ link :: far).tail.map Link.low).take half) ≤ nodeCapacity)
    (fitsRight : load (((near ++ link :: far).tail.map Link.low).drop (half + 1)) ≤
      nodeCapacity) :
    ∃ lower upper, lower.length = half + 1 ∧
      Yields (node.split (near.length - 1) link.low link.index half)
        (PartedAs (near ++ link :: far) lower upper) := by
  have holds := holds_cut linksTo nonempty
  have place : near.length - 1 = (near.tail.map Link.low).length := by
    rw [List.length_map, List.length_tail]
  rw [holds.count_eq] at inside
  rw [← lows_cut nonempty] at fitsLeft fitsRight
  have divided := Node.split_yields holds (aligned nonempty) link.index inside fitsLeft fitsRight
  rcases divided with
    ⟨lowerKeys, separator, upperKeys, lowerChildren, upperChildren, keys_eq, children_eq,
      length_keys, length_children, splits⟩
  rcases List.exists_cons_of_ne_nil nonempty with ⟨first, rest, rfl⟩
  have lows_eq : (rest ++ link :: far).map Link.low = lowerKeys ++ separator :: upperKeys := by
    rw [← keys_eq, List.map_append]
    rfl
  rcases List.map_eq_append_iff.mp lows_eq with ⟨kept, upper, row_eq, rfl, upper_eq⟩
  rcases List.map_eq_cons_iff.mp upper_eq with ⟨head, moved, rfl, rfl, rfl⟩
  rw [List.length_map] at length_keys
  have indices_eq : ((first :: kept).map Link.index) ++ (head :: moved).map Link.index =
      lowerChildren ++ upperChildren := by
    rw [← children_eq, ← List.map_append, List.cons_append, ← row_eq]
    simp
  rcases List.append_inj indices_eq (by simp [length_keys, length_children]) with ⟨rfl, rfl⟩
  refine ⟨first :: kept, head :: moved, by simp [length_keys], ?_⟩
  rw [place]
  apply splits.mono
  intro sides parts
  refine ⟨?_, parts.left, parts.separator_eq, parts.right⟩
  rw [List.cons_append, row_eq, List.cons_append]

end

/-! ## Where a node is split -/

/-- A node that gets a further child although there is no room for it, or no more is wanted, is
split in two nodes with several children each. -/
theorem exists_part (linksTo : node.LinksTo (near ++ far)) (nonempty : near ≠ [])
    (small : ∀ other ∈ near ++ link :: far, other.low.length ≤ maxKeySize) {lacksBytes : Bool}
    (full : lacksBytes = decide (nodeCapacity < load ((near ++ link :: far).tail.map Link.low)))
    (crowded : lacksBytes = false → 2 ≤ node.count) :
    ∃ midpoint half lower upper, node.midpoint = .ok midpoint ∧
      splitPoint node.count lacksBytes midpoint = .ok half ∧
      lower.length = half + 1 ∧ 2 ≤ lower.length ∧ 2 ≤ upper.length ∧
      Yields (node.split (near.length - 1) link.low link.index half)
        (PartedAs (near ++ link :: far) lower upper) := by
  have holds := holds_cut linksTo nonempty
  have length_eq := linksTo.length_eq
  have smallKeys : ∀ key ∈ (near ++ link :: far).tail.map Link.low, key.length ≤ maxKeySize := by
    intro key member
    rcases List.mem_map.mp member with ⟨other, inTail, rfl⟩
    exact small other (List.mem_of_mem_tail inTail)
  rw [← lows_cut nonempty] at full smallKeys
  rcases holds.exists_splitPoint smallKeys full crowded with
    ⟨midpoint, half, found, half_eq, positive, within, fitsLeft, fitsRight⟩
  rw [lows_cut nonempty] at fitsLeft fitsRight
  rcases part_yields linksTo nonempty within fitsLeft fitsRight with
    ⟨lower, upper, length_lower, parts⟩
  refine ⟨midpoint, half, lower, upper, found, half_eq, length_lower, by omega, ?_, parts⟩
  rcases parts with ⟨sides, _, parted⟩
  have lengths := congrArg List.length parted.links_eq
  simp only [List.length_append, List.length_cons] at lengths length_eq
  omega

end LinksTo

theorem pair_yields (child : PageIndex) (small : link.low.length ≤ maxKeySize) :
    Yields (pair link.low child link.index) fun node => node.LinksTo [⟨[], child⟩, link] := by
  have lone : (single child).LinksTo ([Link.mk [] child] ++ []) := single_linksTo ⟨[], child⟩
  have few : (single child).count + 1 < 256 := by
    rw [← lone.length_eq]
    simp
  apply lone.insert_yields (List.cons_ne_nil _ _) few
  apply load_le_of_few (by simp)
  intro key member
  rw [List.mem_singleton.mp member]
  exact small

end Node

end PagedMap
