import PagedMap.Proofs.Page.Leaves
import PagedMap.Proofs.Page.Nodes
import PagedMap.Proofs.Page.Views
import PagedMap.Proofs.Pager.PageLists

/-!
# Outlines of trees

The pages of a tree are described level by level. A leaf is described by its records, and a node by
the pages that it links to, each with the least key that it may hold. Reading the nodes of a level
from left to right, the pages that they link to are all pages of the level below: a level divides
the level below it into groups. The key between two children of a node is the least key of the
right one, and the least key of a node is that of its first child.
-/

namespace PagedMap

open PageList (fetch)

/-- A page as the level above it sees it: the least key that it may hold, and its index. -/
structure Link where
  low : Bytes
  index : PageIndex
deriving DecidableEq

/-- A node and the pages that it links to. -/
structure Group where
  index : PageIndex
  links : List Link
deriving DecidableEq

/-- A leaf and the records that it holds. -/
structure Sheet where
  /-- The least key that the leaf may hold. -/
  low : Bytes
  index : PageIndex
  records : List Record
  /-- The leaf that follows. -/
  next : PageIndex
deriving DecidableEq

/-- The nodes of a level, from left to right. -/
abbrev Level := List Group

namespace Group

/-- The least key that the node may lead to. -/
def low (group : Group) : Bytes := (group.links.head?.map Link.low).getD []

/-- The node as the level above sees it. -/
def link (group : Group) : Link := ⟨group.low, group.index⟩

/-- The keys between the children. -/
def keys (group : Group) : List Bytes := group.links.tail.map Link.low

/-- The children. -/
def children (group : Group) : List PageIndex := group.links.map Link.index

/-- The pages have the node. -/
def Stored (pages : List Page) (group : Group) : Prop :=
  ∃ node : Node, fetch pages group.index = some node.toPage ∧ node.Holds group.keys group.children

end Group

namespace Sheet

/-- The leaf as the level above sees it. -/
def link (sheet : Sheet) : Link := ⟨sheet.low, sheet.index⟩

/-- The first record has the least key that the leaf may hold. -/
def Headed (sheet : Sheet) : Prop := sheet.records.head?.map Prod.fst = some sheet.low

/-- The pages have the leaf. -/
def Stored (pages : List Page) (sheet : Sheet) : Prop :=
  ∃ leaf : Leaf, fetch pages sheet.index = some leaf.toPage ∧ leaf.next = sheet.next ∧
    leaf.Holds sheet.records

end Sheet

/-! ## Levels -/

/-- Levels that rise from one row of pages to another, the lowest level first. -/
def Rises : List Link → List Level → List Link → Prop
  | bottom, [], top => bottom = top
  | bottom, level :: above, top =>
    level.flatMap Group.links = bottom ∧ Rises (level.map Group.link) above top

/-- Levels rise in two stretches, with the row in between that links to the upper one. -/
theorem rises_append {bottom top : List Link} {below above : List Level} :
    Rises bottom (below ++ above) top ↔
      ∃ middle, Rises bottom below middle ∧ Rises middle above top := by
  induction below generalizing bottom with
  | nil =>
      constructor
      · intro rises
        exact ⟨bottom, rfl, rises⟩
      · rintro ⟨_, rfl, rises⟩
        exact rises
  | cons level below ih =>
      simp only [List.cons_append, Rises, ih]
      constructor
      · rintro ⟨divides, middle, lower, upper⟩
        exact ⟨middle, ⟨divides, lower⟩, upper⟩
      · rintro ⟨middle, ⟨divides, lower⟩, upper⟩
        exact ⟨divides, middle, lower, upper⟩

/-- The levels of nodes between a row of pages and the root, as pages store them. No node has fewer
than two children or more than the limit for keys allows. -/
structure Scaffold (limit : Nat) (pages : List Page) (bottom : List Link) (levels : List Level)
    (root : PageIndex) : Prop where
  rises : Rises bottom levels [⟨[], root⟩]
  stored : ∀ group ∈ levels.flatten, group.Stored pages
  several : ∀ group ∈ levels.flatten, 2 ≤ group.links.length
  slim : ∀ group ∈ levels.flatten, group.links.length ≤ limit + 1
  distinct : (levels.flatten.map Group.index).Nodup

theorem Scaffold.links_ne_nil {limit : Nat} {pages : List Page} {bottom : List Link}
    {levels : List Level} {root : PageIndex} (scaffold : Scaffold limit pages bottom levels root) :
    ∀ group ∈ levels.flatten, group.links ≠ [] := by
  intro group member empty
  have := scaffold.several group member
  rw [empty] at this
  contradiction

/-! ## The chain of leaves -/

/-- Each leaf links to the next one, from a first index to the index that ends the chain. -/
def Chained : PageIndex → List Sheet → PageIndex → Prop
  | first, [], last => first = last
  | first, sheet :: rest, last => sheet.index = first ∧ Chained sheet.next rest last

/-- A chain can be taken apart at any leaf. -/
theorem chained_append {first last : PageIndex} {left right : List Sheet} :
    Chained first (left ++ right) last ↔
      ∃ middle, Chained first left middle ∧ Chained middle right last := by
  induction left generalizing first with
  | nil =>
      constructor
      · intro chained
        exact ⟨first, rfl, chained⟩
      · rintro ⟨_, rfl, chained⟩
        exact chained
  | cons sheet left ih =>
      simp only [List.cons_append, Chained, ih]
      constructor
      · rintro ⟨starts, middle, before, behind⟩
        exact ⟨middle, ⟨starts, before⟩, behind⟩
      · rintro ⟨middle, ⟨starts, before⟩, behind⟩
        exact ⟨starts, middle, before, behind⟩

/-- The records of leaves are in order, and their least keys are right. The first leaf may hold any
key, and only if it is the only one it may be empty. -/
structure Ordered (sheets : List Sheet) : Prop where
  ascending : Ascending Prod.fst (sheets.flatMap Sheet.records)
  leftmost : ∃ first rest, sheets = first :: rest ∧ first.low = [] ∧
    (rest ≠ [] → first.records ≠ []) ∧
    ∀ sheet ∈ rest, sheet.Headed

/-- The leaves of a tree, as pages store them. -/
structure Shelf (limit : Nat) (pages : List Page) (sheets : List Sheet) (sentinel : PageIndex) :
    Prop where
  ordered : Ordered sheets
  stored : ∀ sheet ∈ sheets, sheet.Stored pages
  slim : ∀ sheet ∈ sheets, sheet.records.length ≤ limit
  chained : ∃ first, Chained first sheets sentinel
  distinct : (sentinel :: sheets.map Sheet.index).Nodup
  small : ∀ record ∈ sheets.flatMap Sheet.records,
    record.1.length ≤ maxKeySize ∧ Leaf.recordSize record ≤ maxInlineEntry

/-! ## Pages that change elsewhere -/

theorem nodup_replace {front back more : List PageIndex} {index : PageIndex}
    (distinct : (front ++ index :: back).Nodup) (moreDistinct : more.Nodup)
    (isNew : ∀ other ∈ more, other ∉ front ++ index :: back) :
    (front ++ index :: (more ++ back)).Nodup := by
  have perm : (front ++ index :: (more ++ back)).Perm (more ++ (front ++ index :: back)) := by
    have swapped : ((front ++ [index]) ++ more).Perm (more ++ (front ++ [index])) :=
      List.perm_append_comm
    simpa using swapped.append_right back
  rw [perm.nodup_iff, List.nodup_append]
  refine ⟨moreDistinct, distinct, ?_⟩
  rintro other inMore _ isOld rfl
  exact isNew other inMore isOld

section Frames

variable {pages later : List Page} {group : Group} {sheet : Sheet}

theorem Group.Stored.keep (stored : group.Stored pages)
    (keeps : ∀ page, fetch pages group.index = some page → fetch later group.index = some page) :
    group.Stored later := by
  rcases stored with ⟨node, fetched, holds⟩
  exact ⟨node, keeps _ fetched, holds⟩

theorem Sheet.Stored.keep (stored : sheet.Stored pages)
    (keeps : ∀ page, fetch pages sheet.index = some page → fetch later sheet.index = some page) :
    sheet.Stored later := by
  rcases stored with ⟨leaf, fetched, next_eq, holds⟩
  exact ⟨leaf, keeps _ fetched, next_eq, holds⟩

theorem ne_of_kind {left right : PageIndex} {leftPage rightPage : Page} {leftKind rightKind : Kind}
    (leftFetched : fetch pages left = some leftPage) (leftIs : leftPage.kind? = some leftKind)
    (rightFetched : fetch pages right = some rightPage) (rightIs : rightPage.kind? = some rightKind)
    (different : leftKind ≠ rightKind) : left ≠ right := by
  rintro rfl
  rw [leftFetched] at rightFetched
  injection rightFetched with same
  rw [same, rightIs] at leftIs
  injection leftIs with sameKind
  exact different sameKind.symm

theorem Group.Stored.ne_sheet (group_stored : group.Stored pages)
    (sheet_stored : sheet.Stored pages) : group.index ≠ sheet.index := by
  rcases group_stored with ⟨node, node_fetched, _⟩
  rcases sheet_stored with ⟨leaf, leaf_fetched, _⟩
  exact ne_of_kind node_fetched node.kind?_toPage leaf_fetched leaf.kind?_toPage (by decide)

end Frames

end PagedMap
