import PagedMap.Proofs.Page.LeafUpdates
import PagedMap.Proofs.Tree.Keeping

/-!
# What is reached from the root

From the root that an anchor names, nodes link to their children, leaves to the next leaf and to the
overflow pages of their values, and overflow pages to those that go on. If pages retain contents,
all pages that are reached this way are there, are of the right kind and can be read, and each of
them has its place in the outline.
-/

namespace PagedMap

open PageList (fetch)

/-! ## Links between pages -/

/-- What a page is linked to as: a child of a node, the leaf that follows another one, or a part of
a long value. -/
inductive Role where
  | child
  | next
  | part
deriving DecidableEq

/-- A page can be what it is linked to as: it is of a kind that fits, and it can be read. -/
inductive Role.Fits : Role → View → Prop where
  | node {node : Node} {children : List PageIndex} (readable : node.children = .ok children) :
      Fits .child (.node node)
  | leaf {leaf : Leaf} {entries : List Record} (readable : leaf.entries = .ok entries) :
      Fits .child (.leaf leaf)
  | next {leaf : Leaf} {entries : List Record} (readable : leaf.entries = .ok entries) :
      Fits .next (.leaf leaf)
  | part {overflow : Overflow} {data : Bytes} (readable : overflow.data = .ok data) :
      Fits .part (.overflow overflow)

/-- A page links to another. Index zero ends the chain of a value. -/
inductive View.LinksTo : View → Role → PageIndex → Prop where
  | child {node : Node} {children : List PageIndex} {index : PageIndex}
      (known : node.children = .ok children) (member : index ∈ children) :
      LinksTo (.node node) .child index
  | next (leaf : Leaf) : LinksTo (.leaf leaf) .next leaf.next
  | value {leaf : Leaf} {entries : List Record} {record : Record} {head : PageIndex}
      (known : leaf.entries = .ok entries) (member : record ∈ entries)
      (headed : Value.overflowHead? record.2 = some head) (nonzero : head ≠ 0) :
      LinksTo (.leaf leaf) .part head
  | further {overflow : Overflow} (nonzero : overflow.next ≠ 0) :
      LinksTo (.overflow overflow) .part overflow.next

/-- The pages that are reached from the root that an anchor names. The chain of leaves ends at the
sentinel. -/
inductive Reached (pages : List Page) (anchor : Anchor) : Role → PageIndex → Prop where
  | root : Reached pages anchor .child anchor.root
  | link {role other : Role} {index target : PageIndex} {page : Page} {view : View}
      (reached : Reached pages anchor role index) (inner : index ≠ anchor.sentinel)
      (fetched : fetch pages index = some page) (viewed : page.view = .ok view)
      (links : view.LinksTo other target) : Reached pages anchor other target

/-- No link dangles: every page that is reached is there, and it is what it is linked to as. -/
def Connected (pages : List Page) (anchor : Anchor) : Prop :=
  ∀ role index, Reached pages anchor role index →
    ∃ page view, fetch pages index = some page ∧ page.view = .ok view ∧ role.Fits view

/-! ## The pages of an outline -/

/-- A page has a place in an outline, as a node, a leaf, the sentinel or a part of a value. -/
inductive Belongs (pages : List Page) (sentinel : PageIndex) (outline : Outline) :
    Role → PageIndex → Prop where
  | node {group : Group} (member : group ∈ outline.levels.flatten) :
      Belongs pages sentinel outline .child group.index
  | leaf {sheet : Sheet} (member : sheet ∈ outline.sheets) :
      Belongs pages sentinel outline .child sheet.index
  | next {sheet : Sheet} (member : sheet ∈ outline.sheets) :
      Belongs pages sentinel outline .next sheet.index
  | sentinel : Belongs pages sentinel outline .next sentinel
  | part {sheet : Sheet} {record : Record} {index : PageIndex} (inSheets : sheet ∈ outline.sheets)
      (member : record ∈ sheet.records) (spans : Value.Spans pages record.2 index) :
      Belongs pages sentinel outline .part index

/-- Pages that keep the parts of values in an outline have no further pages in it. -/
theorem Belongs.of_kept {pages later : List Page} {sentinel index : PageIndex} {outline : Outline}
    {contents : Contents} {role : Role}
    (means : Means pages (outline.sheets.flatMap Sheet.records) contents)
    (kept : ∀ part page, Belongs pages sentinel outline .part part →
      fetch pages part = some page → fetch later part = some page)
    (belongs : Belongs later sentinel outline role index) :
    Belongs pages sentinel outline role index := by
  cases belongs with
  | node member => exact .node member
  | leaf member => exact .leaf member
  | next member => exact .next member
  | sentinel => exact .sentinel
  | part inSheets member spans =>
      rcases means.decoded _ (List.mem_flatMap_of_mem inSheets member) with ⟨value, _, decodes⟩
      refine .part inSheets member (decodes.spans_of_kept ?_ spans)
      exact fun part page spansPart => kept part page (.part inSheets member spansPart)

/-- Pages that are kept bring nothing into a tree: what belongs to it later belonged to it
before. -/
theorem Belongs.of_keep {pages later : List Page} {sentinel index : PageIndex} {outline : Outline}
    {contents : Contents} {role : Role}
    (means : Means pages (outline.sheets.flatMap Sheet.records) contents)
    (keeps : Value.KeepsOverflows pages later)
    (belongs : Belongs later sentinel outline role index) :
    Belongs pages sentinel outline role index := by
  apply belongs.of_kept means
  intro part page placed
  cases placed with
  | part _ _ spans =>
      rcases spans with ⟨_, _, along⟩
      exact keeps.kept along

namespace Value

variable {pages : List Page} {head index : PageIndex} {rest : Bytes}

/-- From every page on a chain the chain goes on to its end. -/
theorem Chain.of_along (chain : Chain pages head rest) (along : Along pages head index) :
    ∃ later, Chain pages index later := by
  induction chain with
  | done => exact absurd along not_along_zero
  | @part head overflow data rest fetched earlier stored follows ih =>
      rcases along.of_fetched fetched with rfl | further
      · exact ⟨_, Chain.part fetched earlier stored follows⟩
      · exact ih further

theorem Chain.exists_fetch (chain : Chain pages head rest) (nonzero : head ≠ 0) :
    ∃ overflow : Overflow, fetch pages head = some overflow.toPage ∧
      (∃ data, overflow.data = .ok data) ∧ ∃ rest, Chain pages overflow.next rest := by
  cases chain with
  | done => exact absurd rfl nonzero
  | part fetched _ stored follows => exact ⟨_, fetched, ⟨_, stored⟩, _, follows⟩

theorem Along.head_ne_zero (along : Along pages head index) : head ≠ 0 := by
  cases along with
  | here nonzero _ => exact nonzero
  | further nonzero _ _ => exact nonzero

theorem Along.ne_zero (along : Along pages head index) : index ≠ 0 := by
  induction along with
  | here nonzero _ => exact nonzero
  | further _ _ _ ih => exact ih

theorem Along.trans {middle : PageIndex} (first : Along pages head middle)
    (second : Along pages middle index) : Along pages head index := by
  induction first with
  | here _ _ => exact second
  | further nonzero fetched _ ih => exact Along.further nonzero fetched (ih second)

/-- What is on the chain of a value that can be decoded is an overflow page, and the chain goes on
from there. -/
theorem Decodes.of_spans {encoded value : Bytes} (decodes : Decodes pages encoded value)
    (spans : Spans pages encoded index) :
    ∃ overflow : Overflow, fetch pages index = some overflow.toPage ∧
      (∃ data, overflow.data = .ok data) ∧
      (overflow.next ≠ 0 → Spans pages encoded overflow.next) := by
  rcases spans with ⟨head, headed, along⟩
  rcases decodes.exists_chain headed with ⟨_, chain⟩
  rcases chain.of_along along with ⟨later, chainHere⟩
  rcases chainHere.exists_fetch along.ne_zero with ⟨overflow, fetched, readable, _, follows⟩
  refine ⟨overflow, fetched, readable, ?_⟩
  intro nonzero
  rcases follows.exists_fetch nonzero with ⟨next, nextFetched, _⟩
  exact ⟨head, headed, along.trans (.further along.ne_zero fetched (.here nonzero nextFetched))⟩

theorem Decodes.spans_head {encoded value : Bytes} (decodes : Decodes pages encoded value)
    (headed : overflowHead? encoded = some head) (nonzero : head ≠ 0) :
    Spans pages encoded head := by
  rcases decodes.exists_chain headed with ⟨_, chain⟩
  rcases chain.exists_fetch nonzero with ⟨overflow, fetched, _⟩
  exact ⟨head, headed, .here nonzero fetched⟩

end Value

theorem Chained.next_mem {sheets : List Sheet} {sheet : Sheet} {first last : PageIndex}
    (chained : Chained first sheets last) (member : sheet ∈ sheets) :
    sheet.next = last ∨ ∃ other ∈ sheets, sheet.next = other.index := by
  rcases List.append_of_mem member with ⟨front, back, rfl⟩
  rw [chained_append] at chained
  rcases chained with ⟨_, _, _, behind⟩
  cases back with
  | nil => exact Or.inl behind
  | cons other rest => exact Or.inr ⟨other, by simp, behind.1.symm⟩

namespace Retains

variable {limit : Nat} {pages : List Page} {anchor : Anchor} {outline : Outline}
  {contents : Contents} {role other : Role} {index target : PageIndex}

/-- A page that has a place in the outline is there, and it is what it is linked to as. -/
theorem exists_view (retains : Retains limit pages anchor outline contents)
    (belongs : Belongs pages anchor.sentinel outline role index) :
    ∃ page view, fetch pages index = some page ∧ page.view = .ok view ∧ role.Fits view := by
  cases belongs with
  | node member =>
      rcases retains.trellis.stored _ member with ⟨node, fetched, holds⟩
      exact ⟨_, _, fetched, node.view_toPage, .node holds.children_eq⟩
  | leaf member =>
      rcases retains.shelf.stored _ member with ⟨leaf, fetched, _, holds⟩
      exact ⟨_, _, fetched, leaf.view_toPage, .leaf holds.entries_eq⟩
  | next member =>
      rcases retains.shelf.stored _ member with ⟨leaf, fetched, _, holds⟩
      exact ⟨_, _, fetched, leaf.view_toPage, .next holds.entries_eq⟩
  | sentinel =>
      exact ⟨_, _, retains.ended, (Leaf.empty 0).view_toPage, .next (Leaf.empty_holds 0).entries_eq⟩
  | part inSheets member spans =>
      rcases retains.means.decoded _ (List.mem_flatMap_of_mem inSheets member) with ⟨_, _, decodes⟩
      rcases decodes.of_spans spans with ⟨overflow, fetched, ⟨data, readable⟩, _⟩
      exact ⟨_, _, fetched, overflow.view_toPage, .part readable⟩

theorem exists_fetch (retains : Retains limit pages anchor outline contents)
    (belongs : Belongs pages anchor.sentinel outline role index) :
    ∃ page, fetch pages index = some page := by
  rcases retains.exists_view belongs with ⟨page, _, fetched, _⟩
  exact ⟨page, fetched⟩

theorem belongs_of_link {link : Link} (placed : link ∈ outline.sheets.map Sheet.link ∨
      ∃ group ∈ outline.levels.flatten, link = group.link) :
    Belongs pages anchor.sentinel outline .child link.index := by
  rcases placed with isLeaf | ⟨group, member, rfl⟩
  · rcases List.mem_map.mp isLeaf with ⟨sheet, member, rfl⟩
    exact .leaf member
  · exact .node member

/-- What a page of the outline links to has a place in the outline as well. -/
theorem belongs_of_linksTo (retains : Retains limit pages anchor outline contents)
    (belongs : Belongs pages anchor.sentinel outline role index) (inner : index ≠ anchor.sentinel)
    {page : Page} {view : View} (fetched : fetch pages index = some page)
    (viewed : page.view = .ok view) (links : view.LinksTo other target) :
    Belongs pages anchor.sentinel outline other target := by
  have view_eq : ∀ {otherPage : Page} {otherView : View},
      fetch pages index = some otherPage → otherPage.view = .ok otherView → view = otherView := by
    intro otherPage otherView otherFetched otherViewed
    rw [fetched] at otherFetched
    injection otherFetched with same
    rw [← same, viewed] at otherViewed
    injection otherViewed
  -- A leaf links to the same pages whether a node or another leaf has led to it.
  have ofLeaf : ∀ {sheet : Sheet}, sheet ∈ outline.sheets → sheet.index = index →
      Belongs pages anchor.sentinel outline other target := by
    rintro sheet member rfl
    rcases retains.shelf.stored sheet member with ⟨leaf, leafFetched, next_eq, holds⟩
    obtain rfl := view_eq leafFetched leaf.view_toPage
    cases links with
    | next =>
        rw [next_eq]
        rcases retains.shelf.chained with ⟨first, chained⟩
        rcases chained.next_mem member with isLast | ⟨next, inSheets, same⟩
        · rw [isLast]
          exact .sentinel
        · rw [same]
          exact .next inSheets
    | value known inEntries headed nonzero =>
        rw [holds.entries_eq] at known
        injection known with known
        rw [← known] at inEntries
        rcases retains.means.decoded _ (List.mem_flatMap_of_mem member inEntries) with
          ⟨_, _, decodes⟩
        exact .part member inEntries (decodes.spans_head headed nonzero)
  cases belongs with
  | @node group member =>
      rcases retains.trellis.stored group member with ⟨node, nodeFetched, holds⟩
      obtain rfl := view_eq nodeFetched node.view_toPage
      cases links with
      | child known inChildren =>
          rw [holds.children_eq] at known
          injection known with known
          rw [← known] at inChildren
          rcases List.mem_map.mp inChildren with ⟨link, inLinks, rfl⟩
          exact belongs_of_link (retains.trellis.leads.of_group member inLinks)
  | leaf member => exact ofLeaf member rfl
  | next member => exact ofLeaf member rfl
  | sentinel => exact absurd rfl inner
  | part inSheets member spans =>
      rcases retains.means.decoded _ (List.mem_flatMap_of_mem inSheets member) with ⟨_, _, decodes⟩
      rcases decodes.of_spans spans with ⟨overflow, overflowFetched, _, follows⟩
      obtain rfl := view_eq overflowFetched overflow.view_toPage
      cases links with
      | further nonzero => exact .part inSheets member (follows nonzero)

/-- Every page that is reached has a place in the outline. -/
theorem belongs_of_reached (retains : Retains limit pages anchor outline contents)
    (reached : Reached pages anchor role index) :
    Belongs pages anchor.sentinel outline role index := by
  induction reached with
  | root =>
      have placed := retains.trellis.leads.of_top (List.mem_singleton.mpr rfl)
      exact belongs_of_link placed
  | link _ inner fetched viewed links ih =>
      exact retains.belongs_of_linksTo ih inner fetched viewed links

theorem connected (retains : Retains limit pages anchor outline contents) :
    Connected pages anchor := fun _ _ reached =>
  retains.exists_view (retains.belongs_of_reached reached)

end Retains

/-! ## All pages of an outline are reached -/

section

variable {limit : Nat} {pages : List Page} {tree : Tree} {anchor : Anchor} {outline : Outline}
  {contents : Contents} {role : Role} {index : PageIndex}

/-- If all nodes know the pages below them, what is above the highest row leads to everything. -/
theorem Rises.reached {bottom top : List Link} {levels : List Level}
    (rises : Rises bottom levels top) (stored : ∀ group ∈ levels.flatten, group.Stored pages)
    (inner : ∀ group ∈ levels.flatten, group.index ≠ anchor.sentinel)
    (reached : ∀ link ∈ top, Reached pages anchor .child link.index) :
    (∀ link ∈ bottom, Reached pages anchor .child link.index) ∧
      ∀ group ∈ levels.flatten, Reached pages anchor .child group.index := by
  -- By induction on the levels: those above lead to this one, and this one to the row below it.
  induction levels generalizing bottom with
  | nil =>
      subst rises
      exact ⟨reached, by simp⟩
  | cons level above ih =>
      rcases rises with ⟨divides, rises⟩
      rcases ih rises (fun group member => stored group (List.mem_append_right _ member))
        (fun group member => inner group (List.mem_append_right _ member)) with ⟨row, upper⟩
      have here : ∀ group ∈ level, Reached pages anchor .child group.index := fun group member =>
        row group.link (List.mem_map_of_mem member)
      constructor
      · rw [← divides]
        intro link member
        rcases List.mem_flatMap.mp member with ⟨group, inLevel, inLinks⟩
        have inLevels : group ∈ (level :: above).flatten := List.mem_append_left _ inLevel
        rcases stored group inLevels with ⟨node, fetched, holds⟩
        exact .link (here group inLevel) (inner group inLevels) fetched node.view_toPage
          (.child holds.children_eq (List.mem_map_of_mem inLinks))
      · intro group member
        exact (List.mem_append.mp member).elim (here group) (upper group)

theorem Value.Along.reached {head : PageIndex} (along : Value.Along pages head index)
    (ended : fetch pages anchor.sentinel = some (Leaf.empty 0).toPage)
    (reached : Reached pages anchor .part head) : Reached pages anchor .part index := by
  induction along with
  | here _ _ => exact reached
  | further _ fetched along ih =>
      apply ih
      exact .link reached (ne_of_kind fetched (Overflow.kind?_toPage _) ended (Leaf.kind?_toPage _)
        (by decide)) fetched (Overflow.view_toPage _) (.further along.head_ne_zero)

namespace Keeps

/-- A tree is kept if the pages that are its own are. -/
theorem keep_own (keeps : Keeps limit pages tree outline contents) {later : List Page}
    (anchored : fetch later tree.anchorIndex = some tree.anchor.toPage)
    (kept : ∀ role index page, Belongs pages tree.anchor.sentinel outline role index →
      fetch pages index = some page → fetch later index = some page) :
    Keeps limit later tree outline contents where
  anchored := anchored
  ended := kept _ _ _ .sentinel keeps.ended
  shelf := { keeps.shelf with
    stored := fun sheet member =>
      (keeps.shelf.stored sheet member).keep fun page => kept _ _ page (.leaf member) }
  scaffold := keeps.scaffold.keep fun group member page => kept _ _ page (.node member)
  means := {
    decoded := by
      intro record member
      rcases keeps.means.decoded record member with ⟨value, known, decodes⟩
      rcases List.mem_flatMap.mp member with ⟨sheet, inSheets, inRecords⟩
      refine ⟨value, known, decodes.keep_spanned ?_⟩
      exact fun index page spans => kept _ _ page (.part inSheets inRecords spans)
    covered := keeps.means.covered }

/-- What the outline names as nodes and leaves is reached from the root. -/
theorem reached_child (keeps : Keeps limit pages tree outline contents)
    (belongs : Belongs pages tree.anchor.sentinel outline .child index) :
    Reached pages tree.anchor .child index := by
  have inner : ∀ group ∈ outline.levels.flatten, group.index ≠ tree.anchor.sentinel := by
    intro group member
    rcases keeps.scaffold.stored group member with ⟨node, fetched, _⟩
    exact ne_of_kind fetched node.kind?_toPage keeps.ended (Leaf.kind?_toPage _) (by decide)
  have everything := keeps.scaffold.rises.reached keeps.scaffold.stored inner (by
    intro link member
    rw [List.mem_singleton.mp member]
    exact .root)
  cases belongs with
  | node member => exact everything.2 _ member
  | leaf member => exact everything.1 _ (List.mem_map_of_mem member)

/-- Every page that has a place in the outline is reached. -/
theorem reached (keeps : Keeps limit pages tree outline contents)
    (belongs : Belongs pages tree.anchor.sentinel outline role index) :
    ∃ other, Reached pages tree.anchor other index := by
  have distinct := List.nodup_cons.mp keeps.shelf.distinct
  have inner : ∀ sheet ∈ outline.sheets, sheet.index ≠ tree.anchor.sentinel := by
    intro sheet member same
    exact distinct.1 (same ▸ List.mem_map_of_mem member)
  cases belongs with
  | node member => exact ⟨_, keeps.reached_child (.node member)⟩
  | leaf member => exact ⟨_, keeps.reached_child (.leaf member)⟩
  | next member => exact ⟨_, keeps.reached_child (.leaf member)⟩
  | sentinel =>
      -- The last leaf links to the sentinel.
      rcases List.eq_nil_or_concat outline.sheets with empty | ⟨most, last, sheets_eq⟩
      · exact absurd empty keeps.shelf.ordered.ne_nil
      · rw [List.concat_eq_append] at sheets_eq
        have member : last ∈ outline.sheets := by simp [sheets_eq]
        rcases keeps.shelf.chained with ⟨first, chained⟩
        rw [sheets_eq, chained_append] at chained
        rcases chained with ⟨_, _, _, last_eq⟩
        rcases keeps.shelf.stored last member with ⟨leaf, fetched, next_eq, _⟩
        have links : (View.leaf leaf).LinksTo .next tree.anchor.sentinel := by
          have last_eq : last.next = tree.anchor.sentinel := last_eq
          rw [← last_eq, ← next_eq]
          exact .next leaf
        exact ⟨_, .link (keeps.reached_child (.leaf member)) (inner last member) fetched
          leaf.view_toPage links⟩
  | @part sheet record index inSheets member spans =>
      rcases spans with ⟨head, headed, along⟩
      rcases keeps.shelf.stored sheet inSheets with ⟨leaf, fetched, _, holds⟩
      have headReached : Reached pages tree.anchor .part head :=
        .link (keeps.reached_child (.leaf inSheets)) (inner sheet inSheets) fetched
          leaf.view_toPage (.value holds.entries_eq member headed along.head_ne_zero)
      exact ⟨_, along.reached keeps.ended headReached⟩

end Keeps

end

end PagedMap
