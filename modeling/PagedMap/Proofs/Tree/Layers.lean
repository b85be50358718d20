import PagedMap.Proofs.Tree.Outlines

/-!
# The levels of an outline one by one

The lowest level of a scaffold is a row of nodes, and the nodes above it are a scaffold over that
row. A node may be replaced by nodes that hold what it held.
-/

namespace PagedMap

open PageList (fetch)

/-- The nodes of one level, as pages store them. -/
structure Layer (limit : Nat) (pages : List Page) (level : Level) : Prop where
  stored : ∀ group ∈ level, group.Stored pages
  several : ∀ group ∈ level, 2 ≤ group.links.length
  slim : ∀ group ∈ level, group.links.length ≤ limit + 1
  distinct : (level.map Group.index).Nodup

variable {limit : Nat} {pages later : List Page} {bottom : List Link} {level left right : Level}
  {above levels : List Level} {root : PageIndex} {group first : Group}

theorem Group.Stored.exists_fetch (stored : group.Stored pages) :
    ∃ page, fetch pages group.index = some page := by
  rcases stored with ⟨node, fetched, _⟩
  exact ⟨_, fetched⟩

namespace Layer

theorem keep (layer : Layer limit pages level)
    (keeps : ∀ group ∈ level, ∀ page, fetch pages group.index = some page →
      fetch later group.index = some page) : Layer limit later level :=
  { layer with stored := fun group member => (layer.stored group member).keep (keeps group member) }

/-- A node may be replaced by one at the same index and by new ones to its right. -/
theorem replace (layer : Layer limit pages (left ++ group :: right)) {more : Level}
    (keeps : ∀ index page, index ≠ group.index → fetch pages index = some page →
      fetch later index = some page)
    (index_eq : first.index = group.index) (isNew : ∀ other ∈ more, fetch pages other.index = none)
    (distinct : (more.map Group.index).Nodup)
    (stored : ∀ other ∈ first :: more, other.Stored later)
    (several : ∀ other ∈ first :: more, 2 ≤ other.links.length)
    (slim : ∀ other ∈ first :: more, other.links.length ≤ limit + 1) :
    Layer limit later (left ++ first :: (more ++ right)) := by
  -- What is asked of each node does not depend on the order, so the new ones are put first.
  have perm : (left ++ first :: (more ++ right)).Perm ((first :: more) ++ (left ++ right)) := by
    simpa using (List.perm_append_comm : (left ++ first :: more).Perm _).append_right right
  have oldPerm : (left ++ group :: right).Perm (group :: (left ++ right)) := List.perm_middle
  have oldDistinct := (oldPerm.map Group.index).nodup_iff.mp layer.distinct
  rw [List.map_cons, List.nodup_cons] at oldDistinct
  have others : ∀ other ∈ left ++ right, other ∈ left ++ group :: right := fun other member =>
    oldPerm.mem_iff.mpr (List.mem_cons_of_mem _ member)
  refine ⟨?_, ?_, ?_, ?_⟩
  · intro other member
    rcases List.mem_append.mp (perm.mem_iff.mp member) with inNew | inOld
    · exact stored other inNew
    · apply (layer.stored other (others other inOld)).keep
      intro page fetched
      apply keeps _ page _ fetched
      intro same
      exact oldDistinct.1 (same ▸ List.mem_map_of_mem inOld)
  · intro other member
    rcases List.mem_append.mp (perm.mem_iff.mp member) with inNew | inOld
    · exact several other inNew
    · exact layer.several other (others other inOld)
  · intro other member
    rcases List.mem_append.mp (perm.mem_iff.mp member) with inNew | inOld
    · exact slim other inNew
    · exact layer.slim other (others other inOld)
  · have replaced : (left.map Group.index ++
        group.index :: (more.map Group.index ++ right.map Group.index)).Nodup := by
      apply nodup_replace (by simpa using layer.distinct) distinct
      intro index inMore isOld
      rcases List.mem_map.mp inMore with ⟨other, otherMember, rfl⟩
      have isOld : other.index ∈ (left ++ group :: right).map Group.index := by simpa using isOld
      rcases List.mem_map.mp isOld with ⟨old, oldMember, same⟩
      rcases (layer.stored old oldMember).exists_fetch with ⟨page, fetched⟩
      exact PageList.ne_of_fetch fetched (isNew other otherMember) same
    simpa [index_eq] using replaced

end Layer

/-- A scaffold is its lowest layer with a scaffold over it, on other pages. -/
theorem scaffold_cons : Scaffold limit pages bottom (level :: above) root ↔
    level.flatMap Group.links = bottom ∧ Layer limit pages level ∧
      Scaffold limit pages (level.map Group.link) above root ∧
      ∀ group ∈ level, ∀ other ∈ above.flatten, group.index ≠ other.index := by
  constructor
  · intro scaffold
    have distinct := scaffold.distinct
    rw [List.flatten_cons, List.map_append, List.nodup_append] at distinct
    have here : ∀ group ∈ level, group ∈ (level :: above).flatten := fun group member =>
      List.mem_append_left _ member
    have there : ∀ group ∈ above.flatten, group ∈ (level :: above).flatten := fun group member =>
      List.mem_append_right _ member
    refine ⟨scaffold.rises.1, ?_, ?_, ?_⟩
    · exact ⟨fun group member => scaffold.stored group (here group member),
        fun group member => scaffold.several group (here group member),
        fun group member => scaffold.slim group (here group member), distinct.1⟩
    · exact ⟨scaffold.rises.2, fun group member => scaffold.stored group (there group member),
        fun group member => scaffold.several group (there group member),
        fun group member => scaffold.slim group (there group member), distinct.2.1⟩
    · intro group member other inAbove
      exact distinct.2.2 _ (List.mem_map_of_mem member) _ (List.mem_map_of_mem inAbove)
  · rintro ⟨divides, layer, scaffold, apart⟩
    refine ⟨⟨divides, scaffold.rises⟩, ?_, ?_, ?_, ?_⟩
    · intro group member
      exact (List.mem_append.mp member).elim (layer.stored group) (scaffold.stored group)
    · intro group member
      exact (List.mem_append.mp member).elim (layer.several group) (scaffold.several group)
    · intro group member
      exact (List.mem_append.mp member).elim (layer.slim group) (scaffold.slim group)
    · rw [List.flatten_cons, List.map_append, List.nodup_append]
      refine ⟨layer.distinct, scaffold.distinct, ?_⟩
      intro index inLevel otherIndex inAbove
      rcases List.mem_map.mp inLevel with ⟨group, member, rfl⟩
      rcases List.mem_map.mp inAbove with ⟨other, otherMember, rfl⟩
      exact apart group member other otherMember

theorem Scaffold.keep (scaffold : Scaffold limit pages bottom levels root)
    (keeps : ∀ group ∈ levels.flatten, ∀ page, fetch pages group.index = some page →
      fetch later group.index = some page) : Scaffold limit later bottom levels root :=
  { scaffold with
    stored := fun group member => (scaffold.stored group member).keep (keeps group member) }

end PagedMap
