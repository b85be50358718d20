import PagedMap.Proofs.Tree.Layers

/-!
# Levels that lag behind

When a page was split, its new sibling is there before the nodes above link to it. In the meantime
a level does not link to every page of the row below it, but it links to no other pages, in the same
order, and the first page of the row is among them.
-/

namespace PagedMap

open PageList (fetch)

/-- Some pages of a row, among them the first one. -/
structure Heads (fewer more : List Link) : Prop where
  sublist : fewer.Sublist more
  head_eq : fewer.head? = more.head?

namespace Heads

variable {row fewer middle more front back : List Link}

theorem refl (row : List Link) : Heads row row := ⟨List.Sublist.refl _, rfl⟩

theorem trans (first : Heads fewer middle) (second : Heads middle more) : Heads fewer more :=
  ⟨first.sublist.trans second.sublist, first.head_eq.trans second.head_eq⟩

/-- A row without a page that is not the first one. -/
theorem without (nonempty : front ≠ []) (link : Link) :
    Heads (front ++ back) (front ++ link :: back) := by
  rcases List.exists_cons_of_ne_nil nonempty with ⟨first, rest, rfl⟩
  exact ⟨(List.Sublist.refl _).append (List.sublist_cons_self link back), rfl⟩

theorem ne_nil (heads : Heads fewer more) (nonempty : fewer ≠ []) : more ≠ [] := by
  rcases List.exists_cons_of_ne_nil nonempty with ⟨first, rest, rfl⟩
  rintro rfl
  exact absurd heads.head_eq (by simp)

end Heads

/-- Levels that lead from one row of pages to another, the lowest level first, though not every
page of a row is linked to. -/
def Leads : List Link → List Level → List Link → Prop
  | bottom, [], top => Heads top bottom
  | bottom, level :: above, top =>
    Heads (level.flatMap Group.links) bottom ∧ Leads (level.map Group.link) above top

section

variable {bottom wider top : List Link} {levels lower : List Level} {level : Level}

theorem Rises.leads (rises : Rises bottom levels top) : Leads bottom levels top := by
  induction levels generalizing bottom with
  | nil =>
      subst rises
      exact Heads.refl _
  | cons level above ih => exact ⟨rises.1 ▸ Heads.refl _, ih rises.2⟩

theorem Leads.widen (leads : Leads bottom levels top) (heads : Heads bottom wider) :
    Leads wider levels top := by
  cases levels with
  | nil => exact Heads.trans leads heads
  | cons level above => exact ⟨leads.1.trans heads, leads.2⟩

theorem leads_concat : Leads bottom (lower ++ [level]) top ↔
    Leads bottom lower (level.flatMap Group.links) ∧ Heads top (level.map Group.link) := by
  induction lower generalizing bottom with
  | nil => exact Iff.rfl
  | cons first lower ih =>
      simp only [List.cons_append, Leads, ih]
      exact and_assoc.symm

theorem Leads.of_top (leads : Leads bottom levels top) {link : Link} (member : link ∈ top) :
    link ∈ bottom ∨ ∃ group ∈ levels.flatten, link = group.link := by
  induction levels generalizing bottom with
  | nil => exact Or.inl (Heads.sublist leads |>.subset member)
  | cons level above ih =>
      right
      rcases ih leads.2 with inRow | ⟨group, inAbove, link_eq⟩
      · rcases List.mem_map.mp inRow with ⟨group, inLevel, rfl⟩
        exact ⟨group, List.mem_append_left _ inLevel, rfl⟩
      · exact ⟨group, List.mem_append_right _ inAbove, link_eq⟩

/-- A link of a node leads to the row at the bottom or to a node of the level below. -/
theorem Leads.of_group (leads : Leads bottom levels top) {group : Group}
    (inLevels : group ∈ levels.flatten) {link : Link} (member : link ∈ group.links) :
    link ∈ bottom ∨ ∃ other ∈ levels.flatten, link = other.link := by
  induction levels generalizing bottom with
  | nil => contradiction
  | cons level above ih =>
      rcases List.mem_append.mp inLevels with inLevel | inAbove
      · exact Or.inl (leads.1.sublist.subset (List.mem_flatMap_of_mem inLevel member))
      · right
        rcases ih leads.2 inAbove with inRow | ⟨other, inOthers, link_eq⟩
        · rcases List.mem_map.mp inRow with ⟨other, inLevel, rfl⟩
          exact ⟨other, List.mem_append_left _ inLevel, rfl⟩
        · exact ⟨other, List.mem_append_right _ inOthers, link_eq⟩

/-- No level between the leaves and a root is empty. -/
theorem Leads.nonempty (leads : Leads bottom levels top) (topNonempty : top ≠ [])
    (linked : ∀ group ∈ levels.flatten, group.links ≠ []) :
    bottom ≠ [] ∧ ∀ level ∈ levels, level ≠ [] := by
  induction levels generalizing bottom with
  | nil => exact ⟨Heads.ne_nil leads topNonempty, by simp⟩
  | cons level above ih =>
      rcases ih leads.2 fun group member => linked group (List.mem_append_right _ member) with
        ⟨rowNonempty, others⟩
      have levelNonempty : level ≠ [] := by
        rintro rfl
        exact rowNonempty rfl
      rcases List.exists_mem_of_ne_nil _ levelNonempty with ⟨group, member⟩
      rcases List.exists_mem_of_ne_nil _ (linked group (List.mem_append_left _ member)) with
        ⟨link, inGroup⟩
      refine ⟨leads.1.ne_nil (List.ne_nil_of_mem (List.mem_flatMap_of_mem member inGroup)), ?_⟩
      intro other inLevels
      rcases List.mem_cons.mp inLevels with rfl | inAbove
      · exact levelNonempty
      · exact others other inAbove

end

/-- The levels of nodes that lead from the root to a row of pages, as pages store them. -/
structure Trellis (pages : List Page) (bottom : List Link) (levels : List Level)
    (root : PageIndex) : Prop where
  leads : Leads bottom levels [⟨[], root⟩]
  stored : ∀ group ∈ levels.flatten, group.Stored pages
  linked : ∀ group ∈ levels.flatten, group.links ≠ []
  distinct : (levels.flatten.map Group.index).Nodup

variable {limit : Nat} {pages later : List Page} {bottom wider : List Link}
  {levels above : List Level} {level : Level} {root : PageIndex}

theorem Scaffold.trellis (scaffold : Scaffold limit pages bottom levels root) :
    Trellis pages bottom levels root :=
  ⟨scaffold.rises.leads, scaffold.stored, scaffold.links_ne_nil, scaffold.distinct⟩

namespace Trellis

theorem keep (trellis : Trellis pages bottom levels root)
    (keeps : ∀ group ∈ levels.flatten, ∀ page, fetch pages group.index = some page →
      fetch later group.index = some page) : Trellis later bottom levels root :=
  { trellis with
    stored := fun group member => (trellis.stored group member).keep (keeps group member) }

theorem widen (trellis : Trellis pages bottom levels root) (heads : Heads bottom wider) :
    Trellis pages wider levels root :=
  { trellis with leads := trellis.leads.widen heads }

theorem single (root : PageIndex) : Trellis pages [⟨[], root⟩] [] root :=
  ⟨Heads.refl _, by simp, by simp, List.nodup_nil⟩

/-- A layer of nodes below a trellis makes a higher one. -/
theorem cons (layer : Layer limit pages level)
    (trellis : Trellis pages (level.map Group.link) above root)
    (apart : ∀ group ∈ level, ∀ other ∈ above.flatten, group.index ≠ other.index) :
    Trellis pages (level.flatMap Group.links) (level :: above) root := by
  refine ⟨⟨Heads.refl _, trellis.leads⟩, ?_, ?_, ?_⟩
  · intro group member
    exact (List.mem_append.mp member).elim (layer.stored group) (trellis.stored group)
  · intro group member
    rcases List.mem_append.mp member with inLevel | inAbove
    · intro empty
      have several := layer.several group inLevel
      rw [empty] at several
      contradiction
    · exact trellis.linked group inAbove
  · rw [List.flatten_cons, List.map_append, List.nodup_append]
    refine ⟨layer.distinct, trellis.distinct, ?_⟩
    intro index inLevel otherIndex inAbove
    rcases List.mem_map.mp inLevel with ⟨group, member, rfl⟩
    rcases List.mem_map.mp inAbove with ⟨other, otherMember, rfl⟩
    exact apart group member other otherMember

end Trellis

end PagedMap
