import PagedMap.Tree.Basic
import PagedMap.Proofs.Tree.Contents
import PagedMap.Proofs.Tree.Trellises

/-!
# Pages that keep a tree

Pages keep a tree with some contents if there is an outline of it that they store: the anchor page
holds the anchor, the levels of nodes rise from the leaves to the root, the leaves are chained up to
the sentinel, and their records stand for the contents. While a change is under way the nodes may
not know all leaves yet; the pages then still retain the contents. As no page occurs twice in an
outline, no walk through a tree is longer than there are page indices.
-/

namespace PagedMap

open PageList (fetch)

/-- The leaves of a tree, and its levels of nodes with the lowest first. -/
structure Outline where
  sheets : List Sheet
  levels : List Level

/-- Pages keep a tree with some contents, in leaves and nodes with at most `limit` keys. -/
structure Keeps (limit : Nat) (pages : List Page) (tree : Tree) (outline : Outline)
    (contents : Contents) : Prop where
  anchored : fetch pages tree.anchorIndex = some tree.anchor.toPage
  ended : fetch pages tree.anchor.sentinel = some (Leaf.empty 0).toPage
  shelf : Shelf limit pages outline.sheets tree.anchor.sentinel
  scaffold : Scaffold limit pages (outline.sheets.map Sheet.link) outline.levels tree.anchor.root
  means : Means pages (outline.sheets.flatMap Sheet.records) contents

/-- Pages retain some contents in the leaves of a tree, to the first of which an anchor leads. -/
structure Retains (limit : Nat) (pages : List Page) (anchor : Anchor) (outline : Outline)
    (contents : Contents) : Prop where
  ended : fetch pages anchor.sentinel = some (Leaf.empty 0).toPage
  shelf : Shelf limit pages outline.sheets anchor.sentinel
  trellis : Trellis pages (outline.sheets.map Sheet.link) outline.levels anchor.root
  means : Means pages (outline.sheets.flatMap Sheet.records) contents

theorem Keeps.retains {limit : Nat} {pages : List Page} {tree : Tree} {outline : Outline}
    {contents : Contents} (keeps : Keeps limit pages tree outline contents) :
    Retains limit pages tree.anchor outline contents :=
  ⟨keeps.ended, keeps.shelf, keeps.scaffold.trellis, keeps.means⟩

/-! ## There are not more pages than indices -/

/-- A walk over distinct pages is never cut short, as there are fewer pages than it may have
steps. -/
theorem length_le_walkLimit (pages : List Page) {indices : List PageIndex}
    (distinct : indices.Nodup)
    (fetched : ∀ index ∈ indices, ∃ page, fetch pages index = some page) :
    indices.length ≤ walkLimit := by
  have positions := PageList.nodup_positions distinct fetched
  have bounded : ∀ number ∈ indices.map fun index : PageIndex => index.toInt.toNat,
      number < walkLimit := by
    intro number member
    rcases List.mem_map.mp member with ⟨index, _, rfl⟩
    have := Int64.toInt_lt index
    simp only [walkLimit, Word.signedLimit]
    omega
  simpa using PageList.length_le_of_bounded positions bounded

theorem length_le_length_flatten {levels : List Level} (nonempty : ∀ level ∈ levels, level ≠ []) :
    levels.length ≤ levels.flatten.length := by
  induction levels with
  | nil => exact Nat.le_refl _
  | cons level above ih =>
      have positive := List.length_pos_iff.mpr (nonempty level List.mem_cons_self)
      have others := ih fun other member => nonempty other (List.mem_cons_of_mem _ member)
      rw [List.flatten_cons, List.length_append, List.length_cons]
      omega

/-! ## Pages that are there as well -/

theorem Shelf.keep {limit : Nat} {pages later : List Page} {sheets : List Sheet}
    {sentinel : PageIndex} (shelf : Shelf limit pages sheets sentinel)
    (includes : Includes pages later) : Shelf limit later sheets sentinel :=
  { shelf with
    stored := fun sheet member => (shelf.stored sheet member).keep (includes sheet.index) }

theorem Keeps.keep {limit : Nat} {pages later : List Page} {tree : Tree} {outline : Outline}
    {contents : Contents} (keeps : Keeps limit pages tree outline contents)
    (includes : Includes pages later) : Keeps limit later tree outline contents where
  anchored := includes _ _ keeps.anchored
  ended := includes _ _ keeps.ended
  shelf := keeps.shelf.keep includes
  scaffold := keeps.scaffold.keep fun group _ => includes group.index
  means := keeps.means.keep fun index overflow => includes index overflow.toPage

namespace Retains

variable {limit : Nat} {pages : List Page} {anchor : Anchor} {outline : Outline}
  {contents : Contents}

/-- A way from the root to a leaf passes fewer nodes than there are page indices. -/
theorem height_lt (retains : Retains limit pages anchor outline contents) :
    outline.levels.length < walkLimit := by
  rcases List.exists_mem_of_ne_nil _ retains.shelf.ordered.ne_nil with ⟨sheet, inSheets⟩
  have sheetStored := retains.shelf.stored sheet inSheets
  have nonempty := (retains.trellis.leads.nonempty (by simp) retains.trellis.linked).2
  have distinct : (sheet.index :: outline.levels.flatten.map Group.index).Nodup := by
    apply List.nodup_cons.mpr
    refine ⟨?_, retains.trellis.distinct⟩
    intro member
    rcases List.mem_map.mp member with ⟨group, inLevels, same⟩
    exact (retains.trellis.stored group inLevels).ne_sheet sheetStored same
  have bounded := length_le_walkLimit pages distinct (by
    intro index member
    rcases List.mem_cons.mp member with rfl | member
    · rcases sheetStored with ⟨leaf, fetched, _⟩
      exact ⟨_, fetched⟩
    · rcases List.mem_map.mp member with ⟨group, inLevels, rfl⟩
      rcases retains.trellis.stored group inLevels with ⟨node, fetched, _⟩
      exact ⟨_, fetched⟩)
  have height := length_le_length_flatten nonempty
  rw [List.length_cons, List.length_map] at bounded
  omega

theorem leaves (retains : Retains limit pages anchor outline contents) :
    ∀ link ∈ outline.sheets.map Sheet.link,
      ∃ leaf : Leaf, fetch pages link.index = some leaf.toPage := by
  intro link member
  rcases List.mem_map.mp member with ⟨sheet, inSheets, rfl⟩
  rcases retains.shelf.stored sheet inSheets with ⟨leaf, fetched, _⟩
  exact ⟨leaf, fetched⟩

theorem width_lt (retains : Retains limit pages anchor outline contents) :
    outline.sheets.length < walkLimit := by
  have bounded := length_le_walkLimit pages retains.shelf.distinct (by
    intro index member
    rcases List.mem_cons.mp member with rfl | member
    · exact ⟨_, retains.ended⟩
    · rcases List.mem_map.mp member with ⟨sheet, inSheets, rfl⟩
      rcases retains.shelf.stored sheet inSheets with ⟨leaf, fetched, _⟩
      exact ⟨_, fetched⟩)
  rw [List.length_cons, List.length_map] at bounded
  omega

end Retains

end PagedMap
