import PagedMap.Proofs.Page.LeafSplits
import PagedMap.Proofs.Tree.Lookups
import PagedMap.Proofs.Tree.Maintaining
import PagedMap.Proofs.Tree.Shelves

/-!
# Writing an entry

An entry is written into the leaf where its key belongs. If there is room, the leaf is overwritten.
Otherwise it is split, and the nodes above learn of the new leaf. In both cases the pages keep the
tree, and its contents have the entry. If the pager fails on the way, the contents have the entry
from the moment on at which the leaf is overwritten.

Only the leaf changes, unless it is split; then the nodes on the way up do, as far as they are split
themselves, and the first one that is not. What is appended are overflow pages of the value, new
leaves and nodes of the tree, and copies.
-/

namespace PagedMap

open PageList (fetch)
open HoldingM (within)

/-- The leaf where a search ended was split when a record was written: it shares its records with a
leaf on a page that is new, and links to it. -/
def Descent.Splits (before after : List Page) (found : Descent) : Prop :=
  ∃ (left right : Leaf) (record : Record) (less same more lower upper : List Record),
    fetch before left.next = none ∧ fetch after found.index = some left.toPage ∧
      fetch after left.next = some right.toPage ∧ right.next = found.leaf.next ∧
      found.leaf.entries = .ok (less ++ same ++ more) ∧
      (same = [] ∨ ∃ old, same = [(record.1, old)]) ∧
      left.entries = .ok lower ∧ right.entries = .ok upper ∧
      less ++ record :: more = lower ++ upper

/-- The pages that change when a record is written where a search ended: the leaf, and if it is
split, those that change on the way up. -/
def Descent.Climbs (before after : List Page) (anchorIndex : PageIndex) (found : Descent)
    (index : PageIndex) : Prop :=
  index = found.index ∨
    found.Splits before after ∧ PagedMap.Climbs before after anchorIndex found.path index

namespace Transaction

-- The checks compare with large numbers, and would be evaluated wherever a leaf is written.
attribute [local irreducible] Leaf.overflowsWith Leaf.overflowsWithValue

variable {σ : Type} [Pager σ] [AtomicPager σ] {base : List Page} {limit : Nat}
  {outline : Outline} {contents : Contents} {key encoded value : Bytes}
  {holding start before middle after : Holding Transaction σ} {failure : Failure TreeError}

omit [Pager σ] [AtomicPager σ] in
theorem sheet_ne_anchor {pages : List Page} {index : PageIndex} {anchor : Anchor} {sheet : Sheet}
    (stored : sheet.Stored pages) (anchored : fetch pages index = some anchor.toPage) :
    sheet.index ≠ index := by
  rcases stored with ⟨leaf, fetched, _⟩
  exact ne_of_kind fetched leaf.kind?_toPage anchored anchor.kind?_toPage (by decide)

/-- When one leaf of the tree was overwritten, all that the nodes above need is still there. -/
theorem Maintains.overwritten (maintains : Maintains base limit outline contents before)
    {sheet : Sheet} (member : sheet ∈ outline.sheets)
    (advances : Advances (· = sheet.index) before middle)
    (undoable : Undoable base middle.held middle.session.pages)
    (tree_eq : middle.held.tree = before.held.tree) :
    Supports base limit (outline.sheets.map Sheet.link) outline.levels middle := by
  have stored := maintains.keeps.shelf.stored sheet member
  have anchored := maintains.keeps.anchored
  have apart := sheet_ne_anchor stored anchored
  refine ⟨undoable, ?_, ?_, ?_, ?_⟩
  · rw [tree_eq]
    exact advances.kept _ _ apart.symm anchored
  · rw [tree_eq]
    apply maintains.keeps.scaffold.keep
    intro group inLevels page fetched
    exact advances.kept _ page
      ((maintains.keeps.scaffold.stored group inLevels).ne_sheet stored) fetched
  · rw [tree_eq]
    exact advances.ne_copy anchored maintains.anchorOwn
  · intro group inLevels
    rcases (maintains.keeps.scaffold.stored group inLevels).exists_fetch with ⟨page, fetched⟩
    exact advances.ne_copy fetched (maintains.node_own group inLevels)

/-! ## Entries about to be written -/

/-- The contents from before survive, or those with an entry. -/
def EitherSurvives (base : List Page) (limit : Nat) (outline : Outline) (contents : Contents)
    (key value : Bytes) (before after : Holding Transaction σ) : Prop :=
  Survives base limit outline contents before after ∨
    Survives base limit outline (contents.insert key value) before after

/-- The pager failed while an entry was being written. -/
structure Interrupted (base : List Page) (limit : Nat) (outline : Outline) (contents : Contents)
    (key value : Bytes) (before : Holding Transaction σ) (failure : Failure TreeError)
    (after : Holding Transaction σ) : Prop extends Broken base before failure after where
  survives : EitherSurvives base limit outline contents key value before after

theorem Maintains.interrupted (maintains : Maintains base limit outline contents before)
    (halted : Halted base before failure after) (key value : Bytes) :
    Interrupted base limit outline contents key value before failure after :=
  ⟨halted.toBroken, Or.inl (maintains.survives halted)⟩

/-- A value was encoded, and is going to be written for a key. The pages of its chain are new. -/
structure Prepared (base : List Page) (limit : Nat) (outline : Outline) (contents : Contents)
    (key encoded value : Bytes) (start before : Holding Transaction σ) : Prop where
  maintains : Maintains base limit outline contents start
  advances : Advances (fun _ => False) start before
  held_eq : before.held = start.held
  small : key.length ≤ maxKeySize ∧ Leaf.recordSize (key, encoded) ≤ maxInlineEntry
  decodes : Value.Decodes before.session.pages encoded value
  isNew : ∀ index, Value.Spans before.session.pages encoded index →
    fetch start.session.pages index = none
  parts : ∃ parts : List Overflow,
    before.session.pages = start.session.pages ++ parts.map Overflow.toPage

namespace Prepared

variable (prepared : Prepared base limit outline contents key encoded value start before)

include prepared

theorem now : Maintains base limit outline contents before := by
  apply prepared.maintains.advanced prepared.advances _ (by rw [prepared.held_eq])
  rw [prepared.held_eq]
  exact prepared.maintains.undoable.grow prepared.advances.longer
    fun index page fetched => prepared.advances.kept index page id fetched

theorem interrupted (halted : Halted base before failure after) :
    Interrupted base limit outline contents key value start failure after :=
  prepared.maintains.interrupted
    (prepared.advances.halted (by rw [prepared.held_eq]) halted) key value

theorem reaches {touched : PageIndex → Prop} (advances : Advances touched before after) :
    Advances touched start after :=
  prepared.advances.untouched_then advances

theorem spans_own {index : PageIndex} (spans : Value.Spans before.session.pages encoded index) :
    ∀ shadow ∈ before.held.shadows, shadow.copy ≠ index := by
  rw [prepared.held_eq]
  exact prepared.maintains.undoable.ne_missing (prepared.isNew index spans)

end Prepared

/-- How far writing a record spread from the leaf where a search ended. Either the record fitted, and
no other page was overwritten, or it did not, and a separator rose from the leaf. -/
inductive Spreads (found : Descent) (record : Record) (levels later : List Level)
    (before after : Holding Transaction σ) : Prop
  | within (fits : ¬found.Overflows before.held.tree.config.maxEntries record)
      (advances : Advances (· = found.index) before after)
      (root_eq : after.held.tree.anchor.root = before.held.tree.anchor.root)
      (height_eq : later.length = levels.length) : Spreads found record levels later before after
  | beyond {separator : Bytes} {middle : Holding Transaction σ}
      (overflows : found.Overflows before.held.tree.config.maxEntries record)
      (separates : found.Separates record separator)
      (advances : Advances (· = found.index) before middle)
      (tree_eq : middle.held.tree = before.held.tree)
      (risen : Risen found.path separator levels later middle after) :
      Spreads found record levels later before after

/-- An entry was written: the tree has a record more, and the pages that changed and those that were
appended are known. -/
structure Placed (base : List Page) (limit : Nat) (outline later : Outline) (contents : Contents)
    (key encoded value : Bytes) (found : Descent) (start before after : Holding Transaction σ) :
    Prop where
  prepared : Prepared base limit outline contents key encoded value start before
  maintains : Maintains base limit later (contents.insert key value) after
  advances : Advances
    (found.Climbs start.session.pages after.session.pages start.held.tree.anchorIndex) start after
  adds : Adds (Belongs after.session.pages after.held.tree.anchor.sentinel later .child) before
    after
  retained : ∀ index,
    Belongs start.session.pages start.held.tree.anchor.sentinel outline .child index →
      Belongs after.session.pages after.held.tree.anchor.sentinel later .child index
  inherits : ∀ role index,
    Belongs after.session.pages after.held.tree.anchor.sentinel later role index →
      Inherits outline start role index
  copies : ∀ shadow ∈ after.held.shadows,
    shadow ∈ start.held.shadows ∨ fetch before.session.pages shadow.copy = none
  overflows_kept : Value.KeepsOverflows before.session.pages after.session.pages
  records : ∀ record ∈ later.sheets.flatMap Sheet.records,
    record = (key, encoded) ∨ record ∈ outline.sheets.flatMap Sheet.records
  spreads : Spreads found (key, encoded) outline.levels later.levels start after

/-- The entry is in the leaf that was found for it, or in the leaves into which that was split. -/
structure Stowed (base : List Page) (limit : Nat) (outline : Outline) (contents : Contents)
    (key encoded value : Bytes) (found : Descent) (start before after : Holding Transaction σ) :
    Prop where
  continues : Continues base limit outline (contents.insert key value) start after
  placed : ∃ later,
    Placed base limit outline later contents key encoded value found start before after

/-- What writing an entry does before it changes a page: a search ends at a leaf, and the value is
encoded. -/
def Readies (tree : Tree) (key value : Bytes) (session : Session σ) (found : Descent)
    (encoded : Bytes) (middle : Session σ) : Prop :=
  ∃ reached, tree.descend key session = .ok found reached ∧
    (TreeM.ofPager (Value.encode key.length value) : TreeM σ Bytes) reached = .ok encoded middle

omit [AtomicPager σ] in
theorem Readies.unique {tree : Tree} {session reached other : Session σ} {found again : Descent}
    {otherEncoded : Bytes} (readies : Readies tree key value session found encoded reached)
    (otherwise : Readies tree key value session again otherEncoded other) : other = reached := by
  rcases readies with ⟨between, search, encodes⟩
  rcases otherwise with ⟨otherBetween, otherSearch, otherEncodes⟩
  rw [search] at otherSearch
  injection otherSearch with _ same
  rw [← same, encodes] at otherEncodes
  injection otherEncodes with _ same
  exact same.symm

/-- An entry was written, and the transaction goes on. -/
structure Entered (base : List Page) (limit : Nat) (outline : Outline) (contents : Contents)
    (key value : Bytes) (before after : Holding Transaction σ) : Prop where
  continues : Continues base limit outline (contents.insert key value) before after
  placed : ∃ found encoded middle later,
    Readies before.held.tree key value before.session found encoded middle ∧
      Placed base limit outline later contents key encoded value found before
        { before with session := middle } after

section Write

variable {front back others : List Sheet} {sheet first : Sheet} {less same more : List Record}
  {later : List Level}

/-- The record of an entry was written: a leaf was overwritten, and the leaves to its right are
new. The nodes do not know them yet. -/
structure Rewritten (base : List Page) (limit : Nat) (outline : Outline) (contents : Contents)
    (key encoded value : Bytes) (front : List Sheet) (sheet : Sheet) (back : List Sheet)
    (less same more : List Record) (first : Sheet) (others : List Sheet)
    (start before middle : Holding Transaction σ) : Prop where
  prepared : Prepared base limit outline contents key encoded value start before
  spot : Spot outline.sheets key front sheet back less same more
  replaces : Replaces limit (less ++ (key, encoded) :: more) sheet first others
  written : Advances (· = sheet.index) before middle
  undoable : Undoable base middle.held middle.session.pages
  tree_eq : middle.held.tree = before.held.tree
  stored : ∀ other ∈ first :: others, other.Stored middle.session.pages
  isNew : ∀ other ∈ others, fetch before.session.pages other.index = none ∧
    ∀ shadow ∈ middle.held.shadows, shadow.copy ≠ other.index

namespace Rewritten

variable (rewritten : Rewritten base limit outline contents key encoded value front sheet back
  less same more first others start before middle)

include rewritten

theorem mem_sheets : sheet ∈ outline.sheets := by simp [rewritten.spot.sheets_eq]

theorem startTree_eq : middle.held.tree = start.held.tree := by
  rw [rewritten.tree_eq, rewritten.prepared.held_eq]

theorem supports : Supports base limit (outline.sheets.map Sheet.link) outline.levels middle :=
  rewritten.prepared.now.overwritten rewritten.mem_sheets rewritten.written rewritten.undoable
    rewritten.tree_eq

/-- A leaf of the new chain is one of the old ones, left where it was, or one of those that came
in. -/
theorem cases {other : Sheet} (member : other ∈ front ++ first :: (others ++ back)) :
    (other ∈ outline.sheets ∧ other.index ≠ sheet.index) ∨ other ∈ first :: others := by
  have distinct := rewritten.prepared.now.keeps.shelf.distinct
  rw [rewritten.spot.sheets_eq, List.nodup_cons] at distinct
  have perm : (front ++ sheet :: back).Perm (sheet :: (front ++ back)) := List.perm_middle
  have apart := (List.nodup_cons.mp ((perm.map Sheet.index).nodup_iff.mp distinct.2)).1
  have isOld : other ∈ front ++ back → other ∈ outline.sheets ∧ other.index ≠ sheet.index := by
    intro inOld
    refine ⟨?_, fun same => apart (same ▸ List.mem_map_of_mem inOld)⟩
    rw [rewritten.spot.sheets_eq, perm.mem_iff]
    exact List.mem_cons_of_mem _ inOld
  simp only [List.mem_append, List.mem_cons] at member isOld ⊢
  grind

theorem record_cases {record : Record}
    (member : record ∈ (front ++ first :: (others ++ back)).flatMap Sheet.records) :
    record = (key, encoded) ∨ record ∈ outline.sheets.flatMap Sheet.records := by
  rw [Spot.records_write rewritten.replaces] at member
  rw [rewritten.spot.all_eq]
  simp only [List.mem_append, List.mem_cons] at member ⊢
  grind

variable (upper : Advances (fun index => index = middle.held.tree.anchorIndex ∨
  ∃ group ∈ outline.levels.flatten, index = group.index) middle after)

include upper

theorem kept {index : PageIndex} {page : Page} {kind : Kind}
    (fetched : fetch middle.session.pages index = some page) (isKind : page.kind? = some kind)
    (notNode : kind ≠ .node) (notAnchor : kind ≠ .anchor) :
    fetch after.session.pages index = some page := by
  apply upper.kept _ _ _ fetched
  rintro (isAnchor | ⟨group, member, same⟩)
  · exact ne_of_kind fetched isKind rewritten.supports.anchored (Anchor.kind?_toPage _) notAnchor
      isAnchor
  · rcases rewritten.supports.scaffold.stored group member with ⟨node, nodeFetched, _⟩
    exact ne_of_kind fetched isKind nodeFetched node.kind?_toPage notNode same

theorem overflows_kept : Value.KeepsOverflows before.session.pages after.session.pages := by
  intro index overflow fetched
  rcases rewritten.prepared.now.keeps.shelf.stored sheet rewritten.mem_sheets with
    ⟨leaf, leafFetched, _⟩
  have apart := ne_of_kind fetched overflow.kind?_toPage leafFetched leaf.kind?_toPage (by decide)
  exact rewritten.kept upper (rewritten.written.kept _ _ apart fetched) overflow.kind?_toPage
    (by decide) (by decide)

theorem ended_after : fetch after.session.pages before.held.tree.anchor.sentinel =
    some (Leaf.empty 0).toPage := by
  apply rewritten.kept upper _ (Leaf.kind?_toPage _) (by decide) (by decide)
  apply rewritten.written.kept _ _ _ rewritten.prepared.now.keeps.ended
  intro same
  have distinct := rewritten.prepared.now.keeps.shelf.distinct
  rw [List.nodup_cons, same] at distinct
  exact distinct.1 (List.mem_map_of_mem rewritten.mem_sheets)

/-- The chain of leaves with the new ones in it is in order, and it is stored. -/
theorem shelf_after : Shelf limit after.session.pages (front ++ first :: (others ++ back))
    before.held.tree.anchor.sentinel := by
  have keeps := rewritten.prepared.now.keeps
  refine keeps.shelf.write rewritten.spot rewritten.replaces ?_ keeps.ended
    (fun other member => (rewritten.isNew other member).1) rewritten.prepared.small
  intro other member
  have storedMiddle : other.Stored middle.session.pages := by
    rcases rewritten.cases member with ⟨isOld, apart⟩ | isWritten
    · exact (keeps.shelf.stored other isOld).keep
        fun page fetched => rewritten.written.kept _ page apart fetched
    · exact rewritten.stored other isWritten
  rcases storedMiddle with ⟨leaf, fetched, next_eq, holds⟩
  exact ⟨leaf, rewritten.kept upper fetched leaf.kind?_toPage (by decide) (by decide), next_eq,
    holds⟩

theorem means_after : Means after.session.pages
    ((front ++ first :: (others ++ back)).flatMap Sheet.records) (contents.insert key value) := by
  have overflowsKept := rewritten.overflows_kept upper
  have means := rewritten.prepared.now.keeps.means.keep overflowsKept
  rw [rewritten.spot.all_eq] at means
  rw [Spot.records_write rewritten.replaces]
  exact means.write rewritten.spot.wide (rewritten.prepared.decodes.keep overflowsKept)

theorem advances : Advances (outline.Exposes start.held.tree.anchorIndex) start after := by
  have changes := (rewritten.prepared.advances.trans rewritten.written).trans upper
  rw [rewritten.startTree_eq] at changes
  apply changes.mono
  rintro index _ _ ((untouched | isSheet) | isAnchor | isNode)
  · exact untouched.elim
  · exact Or.inr (Or.inr ⟨sheet, rewritten.mem_sheets, isSheet⟩)
  · exact Or.inl isAnchor
  · exact Or.inr (Or.inl isNode)

/-- What had a place before is no copy afterwards, and it had a place at the start. -/
theorem owned_of_belongs {role : Role} {index : PageIndex}
    (belongs : Belongs before.session.pages before.held.tree.anchor.sentinel outline role index) :
    (∀ shadow ∈ after.held.shadows, shadow.copy ≠ index) ∧ Inherits outline start role index := by
  have now := rewritten.prepared.now
  rcases now.keeps.retains.exists_fetch belongs with ⟨page, fetched⟩
  refine ⟨(rewritten.written.trans upper).ne_copy fetched (now.own role index belongs), ?_⟩
  rw [rewritten.prepared.held_eq] at belongs
  exact Or.inl (rewritten.prepared.maintains.belongs rewritten.prepared.advances belongs)

/-- No leaf of the new chain lies where a copy does, and each is on a page of the tree or on one
that is new. -/
theorem owned_of_leaf {other : Sheet} (member : other ∈ front ++ first :: (others ++ back))
    {role : Role} (placed : ∀ old ∈ outline.sheets,
      Belongs before.session.pages before.held.tree.anchor.sentinel outline role old.index) :
    (∀ shadow ∈ after.held.shadows, shadow.copy ≠ other.index) ∧
      Inherits outline start role other.index := by
  rcases rewritten.cases member with ⟨isOld, _⟩ | isWritten
  · exact rewritten.owned_of_belongs upper (placed other isOld)
  · rcases List.mem_cons.mp isWritten with rfl | inOthers
    · have index_eq : other.index = sheet.index := congrArg Link.index rewritten.replaces.link_eq
      rw [index_eq]
      exact rewritten.owned_of_belongs upper (placed sheet rewritten.mem_sheets)
    · rcases rewritten.stored other isWritten with ⟨leaf, fetched, _⟩
      rcases rewritten.isNew other inOthers with ⟨missing, own⟩
      exact ⟨upper.ne_copy fetched own,
        Or.inr (PageList.fetch_none_of_le rewritten.prepared.advances.longer missing)⟩

/-- Whatever has a place after the entry was written is no copy, and it is inherited, if that is so
for the nodes. -/
theorem owned
    (nodes : ∀ group ∈ later.flatten, (∀ shadow ∈ after.held.shadows, shadow.copy ≠ group.index) ∧
      ((∃ old ∈ outline.levels.flatten, group.index = old.index) ∨
        fetch middle.session.pages group.index = none)) {role : Role} {index : PageIndex}
    (belongs : Belongs after.session.pages before.held.tree.anchor.sentinel
      ⟨front ++ first :: (others ++ back), later⟩ role index) :
    (∀ shadow ∈ after.held.shadows, shadow.copy ≠ index) ∧ Inherits outline start role index := by
  cases belongs with
  | @node group member =>
      rcases nodes group member with ⟨own, ⟨old, inLevels, same⟩ | missing⟩
      · rw [same]
        exact rewritten.owned_of_belongs upper (.node inLevels)
      · refine ⟨own, Or.inr (PageList.fetch_none_of_le ?_ missing)⟩
        exact (rewritten.prepared.advances.trans rewritten.written).longer
  | leaf member => exact rewritten.owned_of_leaf upper member fun _ => .leaf
  | next member => exact rewritten.owned_of_leaf upper member fun _ => .next
  | sentinel => exact rewritten.owned_of_belongs upper .sentinel
  | part inSheets member spans =>
      have overflowsKept := rewritten.overflows_kept upper
      rcases rewritten.record_cases (List.mem_flatMap_of_mem inSheets member) with rfl | isOld
      · have spansBefore := rewritten.prepared.decodes.spans_of_keep overflowsKept spans
        rcases rewritten.prepared.decodes.of_spans spansBefore with ⟨overflow, fetched, _⟩
        exact ⟨(rewritten.written.trans upper).ne_copy fetched
          (rewritten.prepared.spans_own spansBefore),
          Or.inr (rewritten.prepared.isNew index spansBefore)⟩
      · rcases List.mem_flatMap.mp isOld with ⟨old, inOutline, inRecords⟩
        have belongs : Belongs after.session.pages before.held.tree.anchor.sentinel outline .part
            index := .part inOutline inRecords spans
        exact rewritten.owned_of_belongs upper
          (belongs.of_keep rewritten.prepared.now.keeps.means overflowsKept)

omit upper in
theorem settled (upper : Propagated base limit
      ((front ++ first :: (others ++ back)).map Sheet.link) outline.levels later middle after)
    {role : Role} {index : PageIndex}
    (belongs : Belongs after.session.pages after.held.tree.anchor.sentinel
      ⟨front ++ first :: (others ++ back), later⟩ role index) :
    (∀ shadow ∈ after.held.shadows, shadow.copy ≠ index) ∧ Inherits outline start role index := by
  rw [upper.sentinel_eq, rewritten.tree_eq] at belongs
  exact rewritten.owned upper.advances
    (fun group member => ⟨upper.supports.own group member, upper.isNew group member⟩) belongs

omit upper in
/-- When the nodes have learned of the new leaves, the pages keep the tree with the entry. -/
theorem maintains (upper : Propagated base limit
      ((front ++ first :: (others ++ back)).map Sheet.link) outline.levels later middle after) :
    Maintains base limit ⟨front ++ first :: (others ++ back), later⟩ (contents.insert key value)
      after := by
  have supports := upper.supports
  have sentinel_eq : after.held.tree.anchor.sentinel = before.held.tree.anchor.sentinel := by
    rw [upper.sentinel_eq, rewritten.tree_eq]
  refine ⟨supports.undoable, ⟨supports.anchored, ?_, ?_, supports.scaffold,
      rewritten.means_after upper.advances⟩, supports.anchorOwn,
      fun role index belongs => (rewritten.settled upper belongs).1⟩
  · rw [sentinel_eq]
    exact rewritten.ended_after upper.advances
  · rw [sentinel_eq]
    exact rewritten.shelf_after upper.advances

omit upper in
theorem continues (upper : Propagated base limit
      ((front ++ first :: (others ++ back)).map Sheet.link) outline.levels later middle after) :
    Continues base limit outline (contents.insert key value) start after := by
  refine ⟨⟨_, rewritten.maintains upper,
      fun role index belongs => (rewritten.settled upper belongs).2⟩,
    rewritten.advances upper.advances, ?_, ?_⟩
  · rw [upper.sentinel_eq, rewritten.startTree_eq]
  · rw [upper.sequence_eq, rewritten.startTree_eq]

omit upper in
/-- When the way up has ended, the pages keep the new leaves under the new levels, with the value of
the key in its place. -/
theorem placed {found : Descent} (upper : Propagated base limit
      ((front ++ first :: (others ++ back)).map Sheet.link) outline.levels later middle after)
    (climbs : Advances (found.Climbs start.session.pages after.session.pages
      start.held.tree.anchorIndex) before after)
    (adds : Adds (fun index => (∃ other ∈ others, index = other.index) ∨
      ∃ group ∈ later.flatten, index = group.index) before after)
    (spreads : Spreads found (key, encoded) outline.levels later start after) :
    Placed base limit outline ⟨front ++ first :: (others ++ back), later⟩ contents key encoded value
      found start before after where
  prepared := rewritten.prepared
  maintains := rewritten.maintains upper
  advances := rewritten.prepared.reaches climbs
  adds := by
    apply adds.mono
    rintro index (⟨other, member, rfl⟩ | ⟨group, member, rfl⟩)
    · exact .leaf (by simp [member])
    · exact .node member
  retained := by
    intro index belongs
    cases belongs with
    | node member =>
        rcases upper.retained _ member with ⟨other, inLater, same⟩
        rw [← same]
        exact .node inLater
    | @leaf old member =>
        have index_eq : first.index = sheet.index := congrArg Link.index rewritten.replaces.link_eq
        rw [rewritten.spot.sheets_eq] at member
        rcases List.mem_append.mp member with inFront | member
        · exact .leaf (by simp [inFront])
        · rcases List.mem_cons.mp member with rfl | inBack
          · rw [← index_eq]
            exact .leaf (by simp)
          · exact .leaf (by simp [inBack])
  inherits _ _ belongs := (rewritten.settled upper belongs).2
  copies := by
    have held_eq := rewritten.prepared.held_eq
    rw [← held_eq]
    exact (rewritten.written.trans upper.advances).copies
  overflows_kept := rewritten.overflows_kept upper.advances
  records _ member := rewritten.record_cases member
  spreads := spreads

omit upper in
/-- While the nodes lag behind, the pages lead to the contents with the entry. -/
theorem survives (upper : Lagging base ((front ++ first :: (others ++ back)).map Sheet.link)
      outline.levels middle failure after) :
    Survives base limit outline (contents.insert key value) start after := by
  have bears : ∀ anchor : Anchor, anchor.sentinel = middle.held.tree.anchor.sentinel →
      Upheld ((front ++ first :: (others ++ back)).map Sheet.link) outline.levels anchor.root
        middle after →
      Bears limit outline (contents.insert key value) start after anchor := by
    rintro anchor sentinel_eq ⟨later, trellis, nodes⟩
    rw [rewritten.tree_eq] at sentinel_eq
    refine ⟨by rw [sentinel_eq, rewritten.prepared.held_eq],
      ⟨front ++ first :: (others ++ back), later⟩,
      ⟨?_, ?_, trellis, rewritten.means_after upper.changes⟩, ?_⟩
    · rw [sentinel_eq]
      exact rewritten.ended_after upper.changes
    · rw [sentinel_eq]
      exact rewritten.shelf_after upper.changes
    · intro role index belongs
      rw [sentinel_eq] at belongs
      exact rewritten.owned upper.changes nodes belongs
  refine ⟨upper.undoable, rewritten.advances upper.changes, ?_, ?_,
    bears _ upper.sentinel_eq upper.held⟩
  · rw [upper.changes.anchorIndex_eq]
    exact upper.changes.ne_copy rewritten.supports.anchored rewritten.supports.anchorOwn
  · rcases upper.stored with ⟨anchor, fetched, sentinel_eq, upheld⟩
    rw [← upper.changes.anchorIndex_eq] at fetched
    exact ⟨anchor, fetched, bears anchor sentinel_eq upheld⟩

omit upper in
theorem interrupted (upper : Lagging base ((front ++ first :: (others ++ back)).map Sheet.link)
      outline.levels middle failure after) :
    Interrupted base limit outline contents key value start failure after :=
  ⟨(rewritten.prepared.advances.trans rewritten.written).broken upper.toBroken,
    Or.inr (rewritten.survives upper)⟩

end Rewritten

/-! ## Writing a leaf -/

variable {found : Descent}

/-- Where an entry fits in its leaf, one write puts it there, and the nodes above stay as they
are. -/
theorem rewrite_ends
    (prepared : Prepared base limit outline contents key encoded value start before)
    (landing : Landing before.session.pages outline found front sheet back)
    (spot : Spot outline.sheets key front sheet back less same more) {leaf : Leaf}
    (holds : leaf.Holds (less ++ (key, encoded) :: more)) (next_eq : leaf.next = sheet.next)
    (slim : (less ++ (key, encoded) :: more).length ≤ limit)
    (fits : ¬found.Overflows before.held.tree.config.maxEntries (key, encoded)) :
    Ends (overwrite found.index leaf.toPage before)
      (fun _ after =>
        Stowed base limit outline contents key encoded value found start before after)
      (Interrupted base limit outline contents key value start) := by
  have inSheets : sheet ∈ outline.sheets := by simp [spot.sheets_eq]
  rw [landing.index_eq]
  apply Ends.mono (overwrite_ends prepared.now.undoable landing.fetched
    (prepared.now.leaf_own sheet inSheets) leaf.toPage) _ fun _ _ => prepared.interrupted
  rintro _ after ⟨written, undoable, tree_eq, stored, copies⟩
  have replaces : Replaces limit (less ++ (key, encoded) :: more) sheet
      ⟨sheet.low, sheet.index, less ++ (key, encoded) :: more, sheet.next⟩ [] := by
    refine ⟨rfl, by simp, by simp, by simp, rfl, ?_, List.nodup_nil⟩
    exact List.forall_mem_singleton.mpr slim
  have storedFirst : ∀ other ∈
      [Sheet.mk sheet.low sheet.index (less ++ (key, encoded) :: more) sheet.next],
      other.Stored after.session.pages :=
    List.forall_mem_singleton.mpr ⟨leaf, stored, next_eq, holds⟩
  have rewritten : Rewritten base limit outline contents key encoded value front sheet back less
      same more _ _ start before after :=
    ⟨prepared, spot, replaces, written, undoable, tree_eq, storedFirst, by simp⟩
  have row_eq : outline.sheets.map Sheet.link = (front ++
      Sheet.mk sheet.low sheet.index (less ++ (key, encoded) :: more) sheet.next ::
        ([] ++ back)).map Sheet.link := by
    rw [spot.sheets_eq]
    simp [Sheet.link]
  have upper := rewritten.supports.propagated
  rw [row_eq] at upper
  have onLeaf : Advances (· = found.index) before after := by
    rw [landing.index_eq]
    exact written
  rw [prepared.held_eq] at fits
  refine ⟨rewritten.continues upper, _, rewritten.placed upper
    (onLeaf.mono fun _ _ _ => Or.inl) copies.of_none
    (.within fits (prepared.reaches onLeaf) ?_ rfl)⟩
  rw [tree_eq, prepared.held_eq]

omit [Pager σ] [AtomicPager σ] in
/-- The two halves of a leaf take its place in the chain, and the second one becomes the link that
is new above. -/
theorem replaces_of_divided {leaf : Leaf} {records lower upper : List Record} {head : Record}
    {sides : Leaf × Leaf} (divided : leaf.DividedAs records lower (head :: upper) sides)
    (few : leaf.count ≤ limit) (sheet : Sheet) (fresh : PageIndex) :
    Replaces limit records sheet ⟨sheet.low, sheet.index, lower, fresh⟩
      [⟨head.1, fresh, head :: upper, sheet.next⟩] := by
  refine ⟨rfl, ?_, divided.lowerFilled, ?_, ⟨rfl, rfl⟩, ?_, List.pairwise_singleton ..⟩
  · rw [divided.records_eq]
    simp
  · exact List.forall_mem_singleton.mpr rfl
  · have upperFew : (head :: upper).length ≤ limit := Nat.le_trans divided.upperFew few
    exact List.forall_mem_cons.mpr
      ⟨Nat.le_trans divided.lowerFew few, List.forall_mem_singleton.mpr upperFew⟩

/-- A leaf was split: the new leaf has its page, and the old one links to it. -/
theorem Rewritten.divided {lower upper : List Record} {head : Record} {sides : Leaf × Leaf}
    {fresh : PageIndex}
    (prepared : Prepared base limit outline contents key encoded value start before)
    (landing : Landing before.session.pages outline found front sheet back)
    (spot : Spot outline.sheets key front sheet back less same more)
    (divided : found.leaf.DividedAs (less ++ (key, encoded) :: more) lower (head :: upper) sides)
    (flanked : Flanked base sheet.index (fun fresh => { sides.1 with next := fresh }.toPage)
      sides.2.toPage fresh before middle) :
    Rewritten base limit outline contents key encoded value front sheet back less same more
      ⟨sheet.low, sheet.index, lower, fresh⟩ [⟨head.1, fresh, head :: upper, sheet.next⟩]
      start before middle := by
  have inSheets : sheet ∈ outline.sheets := by simp [spot.sheets_eq]
  have few : found.leaf.count ≤ limit := by
    rw [landing.holds.count_eq]
    exact prepared.now.keeps.shelf.slim sheet inSheets
  refine ⟨prepared, spot, replaces_of_divided divided few sheet fresh, flanked.advances,
    flanked.undoable, flanked.tree_eq, ?_, ?_⟩
  · have storedRight :
        Sheet.Stored middle.session.pages ⟨head.1, fresh, head :: upper, sheet.next⟩ :=
      ⟨_, flanked.appended, divided.rightNext.trans landing.next_eq, divided.right⟩
    exact List.forall_mem_cons.mpr
      ⟨⟨_, flanked.written, rfl, divided.left.withNext fresh⟩,
        List.forall_mem_singleton.mpr storedRight⟩
  · exact List.forall_mem_singleton.mpr ⟨flanked.missing, flanked.own⟩

/-- A leaf was split, and the nodes above learned of the new one. -/
theorem Rewritten.splits {lower upper : List Record} {head : Record} {sides : Leaf × Leaf}
    {fresh : PageIndex}
    (rewritten : Rewritten base limit outline contents key encoded value front sheet back less same
      more ⟨sheet.low, sheet.index, lower, fresh⟩ [⟨head.1, fresh, head :: upper, sheet.next⟩]
      start before middle)
    (landing : Landing before.session.pages outline found front sheet back)
    (divided : found.leaf.DividedAs (less ++ (key, encoded) :: more) lower (head :: upper) sides)
    (flanked : Flanked base sheet.index (fun fresh => { sides.1 with next := fresh }.toPage)
      sides.2.toPage fresh before middle)
    (advances : Advances (fun index => index = middle.held.tree.anchorIndex ∨
      ∃ group ∈ outline.levels.flatten, index = group.index) middle after) :
    found.Splits start.session.pages after.session.pages := by
  have kept := fun {index : PageIndex} {leaf : Leaf}
      (fetched : fetch middle.session.pages index = some leaf.toPage) =>
    rewritten.kept advances fetched leaf.kind?_toPage (by decide) (by decide)
  refine ⟨{ sides.1 with next := fresh }, sides.2, (key, encoded), less, same, more, lower,
    head :: upper, ?_, ?_, kept flanked.appended, divided.rightNext, ?_, rewritten.spot.around.same,
    (divided.left.withNext fresh).entries_eq, divided.right.entries_eq, divided.records_eq⟩
  · exact PageList.fetch_none_of_le rewritten.prepared.advances.longer flanked.missing
  · rw [landing.index_eq]
    exact kept flanked.written
  · rw [landing.holds.entries_eq, rewritten.spot.records_eq]

/-- Where an entry does not fit, the leaf is split at the chosen record. The right half is appended
before the left one takes the place of the leaf, and the way up puts in the separator. -/
theorem splitLeaf_ends
    (prepared : Prepared base limit outline contents key encoded value start before)
    (bounded : limit ≤ 255) (roomy : before.held.tree.config.maxEntries ≤ limit)
    (landing : Landing before.session.pages outline found front sheet back)
    (spot : Spot outline.sheets key front sheet back less same more) {place : Place}
    {lacksBytes : Bool} {old : List Record}
    (divides : found.leaf.Divides place (key, encoded) lacksBytes old
      (less ++ (key, encoded) :: more))
    (finds : found.leaf.find key = .ok place)
    (lacks_eq : lacksBytes = decide (leafCapacity < Leaf.load (less ++ (key, encoded) :: more)))
    (overflows : found.Overflows before.held.tree.config.maxEntries (key, encoded)) :
    Ends (splitLeaf found place key encoded lacksBytes before)
      (fun _ after =>
        Stowed base limit outline contents key encoded value found start before after)
      (Interrupted base limit outline contents key value start) := by
  have maintains := prepared.now
  have inSheets : sheet ∈ outline.sheets := by simp [spot.sheets_eq]
  rcases divides with ⟨midpoint, half, lower, upper, halfway, halves, _, ⟨left, right⟩, splits,
    divided⟩
  rcases List.exists_cons_of_ne_nil divided.upperFilled with ⟨head, rest, rfl⟩
  have rightHolds : right.Holds ([] ++ head :: rest) := divided.right
  have separator_eq : right.key 0 = .ok head.1 := rightHolds.key_eq
  have holds := landing.holds
  rw [spot.records_eq] at holds
  -- What is passed up is the least key on the right, as the leaf itself decides.
  have separates : found.Separates (key, encoded) head.1 :=
    Descent.separates_of_split holds spot.around finds halfway (lacks_eq ▸ halves) splits
      separator_eq
  simp only [splitLeaf]
  rw [Ends.lift_bind halfway, Ends.lift_bind halves, Ends.lift_bind splits, landing.index_eq]
  apply flank_ends maintains.undoable landing.fetched (maintains.leaf_own sheet inSheets)
    fun _ _ => prepared.interrupted
  intro fresh middle flanked
  rw [Ends.lift_bind separator_eq]
  have rewritten := Rewritten.divided prepared landing spot divided flanked
  have row_eq : outline.sheets.map Sheet.link =
      (front ++ [sheet]).map Sheet.link ++ back.map Sheet.link := by
    simp [spot.sheets_eq]
  have supports := rewritten.supports
  rw [row_eq] at supports
  have ends : EndsAt ((front ++ [sheet]).map Sheet.link) sheet.index :=
    ⟨front.map Sheet.link, sheet.low, by simp [Sheet.link]⟩
  have small : ∀ link ∈ (front ++ [sheet]).map Sheet.link ++
      Link.mk head.1 fresh :: back.map Sheet.link, link.low.length ≤ maxKeySize := by
    refine forall_mem_insert.mpr ⟨?_, ?_⟩
    · apply (maintains.keeps.shelf.small_write spot prepared.small head ?_).1
      simp [divided.records_eq]
    · rw [← row_eq]
      exact maintains.keeps.shelf.links_small
  have newRow_eq : (front ++ [sheet]).map Sheet.link ++
      Link.mk head.1 fresh :: back.map Sheet.link =
        (front ++ Sheet.mk sheet.low sheet.index lower fresh ::
          ([Sheet.mk head.1 fresh (head :: rest) sheet.next] ++ back)).map Sheet.link := by
    simp [Sheet.link]
  -- From here on the leaves have the entry, and only the nodes lag behind.
  have propagates := propagate_ends landing.trail bounded ends ⟨head.1, fresh⟩ supports small
    (by rw [flanked.tree_eq]; exact roomy)
  rw [newRow_eq] at propagates
  apply Ends.mono propagates
  · rintro _ after ⟨later, upper, climbed⟩
    rw [prepared.held_eq] at overflows
    refine ⟨rewritten.continues upper, _, rewritten.placed upper ?_ ?_
      (.beyond overflows separates ?_ rewritten.startTree_eq climbed.risen)⟩
    · have splits := rewritten.splits landing divided flanked upper.advances
      apply (flanked.advances.trans climbed.advances).mono
      rintro index _ _ (isLeaf | further)
      · exact Or.inl (isLeaf.trans landing.index_eq.symm)
      · rw [rewritten.startTree_eq] at further
        exact Or.inr ⟨splits, further.of_longer
          (prepared.advances.trans flanked.advances).longer⟩
    · apply (flanked.adds.trans climbed.adds climbed.advances).mono
      rintro index (rfl | isNode)
      · exact Or.inl ⟨_, List.mem_singleton.mpr rfl, rfl⟩
      · exact Or.inr isNode
    · rw [landing.index_eq]
      exact prepared.reaches flanked.advances
  · intro failure after lagging
    exact rewritten.interrupted lagging

/-- A key that is new makes one more record. It is put into the leaf where it belongs, unless the
leaf has as many bytes or records as it can have. -/
theorem addRecord_ends
    (prepared : Prepared base limit outline contents key encoded value start before)
    (bounded : limit ≤ 255) (roomy : before.held.tree.config.maxEntries ≤ limit)
    (landing : Landing before.session.pages outline found front sheet back)
    (spot : Spot outline.sheets key front sheet back less [] more) :
    Ends ((do
        let lacksBytes ← found.leaf.overflowsWith key.length encoded.length
        if lacksBytes || found.leaf.count + 1 > before.held.tree.config.maxEntries then
          splitLeaf found ⟨less.length, false⟩ key encoded lacksBytes
        else
          overwrite found.index
            (← found.leaf.insert less.length key encoded).toPage : TransactionM σ Unit) before)
      (fun _ after =>
        Stowed base limit outline contents key encoded value found start before after)
      (Interrupted base limit outline contents key value start) := by
  have holds := landing.holds
  rw [spot.records_eq] at holds
  have overflows_iff :=
    Descent.overflows_iff holds spot.around before.held.tree.config.maxEntries encoded
  have finds := spot.around.find_eq holds
  rw [List.append_nil] at holds finds
  have tiny : Leaf.recordSize (key, encoded) < 0x1000000000000000 :=
    Nat.lt_of_le_of_lt prepared.small.2 (by decide)
  have room : found.leaf.overflowsWith key.length encoded.length =
      .ok (decide (leafCapacity < Leaf.load (less ++ (key, encoded) :: more))) :=
    holds.overflowsWith_record (key, encoded) tiny
  rw [Ends.lift_bind room]
  have count_eq := holds.count_eq
  have longer : (less ++ (key, encoded) :: more).length = found.leaf.count + 1 := by
    simp only [List.length_append, List.length_cons] at count_eq ⊢
    omega
  split
  next crowded =>
    rw [Bool.or_eq_true, decide_eq_true_eq, decide_eq_true_eq] at crowded
    have overflows := overflows_iff.mpr (crowded.imp_right fun many => ⟨rfl, many⟩)
    -- A leaf with bytes to spare is crowded only if it has as many records as are allowed.
    have several : decide (leafCapacity < Leaf.load (less ++ (key, encoded) :: more)) = false →
        2 ≤ found.leaf.count := by
      intro fits
      have many := crowded.resolve_left (of_decide_eq_false fits)
      have minimum := before.held.tree.config.three_le_maxEntries
      omega
    have divides := holds.divides_insert (fun other member =>
      (prepared.now.keeps.shelf.small_write spot prepared.small other member).2) rfl several
    exact splitLeaf_ends prepared bounded roomy landing spot divides finds rfl overflows
  next roomHere =>
    rw [Bool.or_eq_true, decide_eq_true_eq, decide_eq_true_eq] at roomHere
    have fits := mt overflows_iff.mp fun full => roomHere (full.imp_right And.right)
    rw [not_or] at roomHere
    have few : (less ++ (key, encoded) :: more).length ≤ limit := by omega
    rcases holds.insert_yields (by omega) (Nat.le_of_not_lt roomHere.1) with
      ⟨changed, inserts, changedHolds, next_eq⟩
    rw [Ends.lift_bind inserts]
    exact rewrite_ends prepared landing spot changedHolds (next_eq.trans landing.next_eq) few fits

/-- A key that is known keeps its record, with another value. The leaf is split only for want of
bytes, as the number of its records stays the same. -/
theorem setRecord_ends {old : Bytes}
    (prepared : Prepared base limit outline contents key encoded value start before)
    (bounded : limit ≤ 255) (roomy : before.held.tree.config.maxEntries ≤ limit)
    (landing : Landing before.session.pages outline found front sheet back)
    (spot : Spot outline.sheets key front sheet back less [(key, old)] more) :
    Ends ((do
        if ← found.leaf.overflowsWithValue less.length encoded.length then
          splitLeaf found ⟨less.length + 1, true⟩ key encoded true
        else
          overwrite found.index
            (← found.leaf.setValue less.length encoded).toPage : TransactionM σ Unit) before)
      (fun _ after =>
        Stowed base limit outline contents key encoded value found start before after)
      (Interrupted base limit outline contents key value start) := by
  have shelf := prepared.now.keeps.shelf
  have inSheets : sheet ∈ outline.sheets := by simp [spot.sheets_eq]
  have records_eq : sheet.records = less ++ (key, old) :: more := by simp [spot.records_eq]
  have holds := landing.holds
  rw [spot.records_eq] at holds
  have overflows_iff :=
    Descent.overflows_iff holds spot.around before.held.tree.config.maxEntries encoded
  have finds : found.leaf.find key = .ok ⟨less.length + 1, true⟩ := by
    rw [spot.around.find_eq holds]
    simp
  rw [List.append_assoc, List.singleton_append] at holds
  have tiny : Leaf.recordSize (key, encoded) < 0x1000000000000000 :=
    Nat.lt_of_le_of_lt prepared.small.2 (by decide)
  rw [Ends.lift_bind (holds.overflowsWithValue_eq encoded
    (Nat.lt_of_le_of_lt (Nat.le_add_left ..) tiny))]
  split
  next full =>
    -- The number of records stays, so it can only be bytes that are lacking.
    have heavy := of_decide_eq_true full
    have smallOld : ∀ other ∈ less ++ (key, old) :: more,
        Leaf.recordSize other ≤ maxInlineEntry := by
      intro other member
      rw [← records_eq] at member
      exact (shelf.small other (List.mem_flatMap_of_mem inSheets member)).2
    exact splitLeaf_ends prepared bounded roomy landing spot
      (holds.divides_setValue smallOld prepared.small.2 heavy) finds full.symm
      (overflows_iff.mpr (Or.inl heavy))
  next roomHere =>
    have light : ¬leafCapacity < Leaf.load (less ++ (key, encoded) :: more) :=
      fun heavy => roomHere (decide_eq_true heavy)
    have fits := mt overflows_iff.mp (not_or.mpr ⟨light, fun many => List.cons_ne_nil _ _ many.1⟩)
    rcases holds.setValue_yields (Nat.le_of_not_lt light) with ⟨changed, sets, changedHolds, next_eq⟩
    rw [Ends.lift_bind sets]
    apply rewrite_ends prepared landing spot changedHolds (next_eq.trans landing.next_eq) _ fits
    have slim := shelf.slim sheet inSheets
    rw [records_eq] at slim
    simpa using slim

/-! ## Looking for the leaf and encoding the value -/

/-- Overflow pages of a value are appended while the transaction itself stays as it is. -/
theorem encode_ends (undoable : Undoable base holding.held holding.session.pages)
    (nonempty : 0 < holding.session.pages.length) {keySize : Nat} (keyFits : keySize ≤ maxKeySize)
    (addressable : value.length < Word.signedLimit) :
    Ends (within (TreeM.ofPager (Value.encode keySize value)) holding)
      (fun encoded after => ∃ session, after = { holding with session } ∧
        Value.Encoded keySize value holding.session encoded session ∧
        (TreeM.ofPager (Value.encode keySize value) : TreeM σ Bytes) holding.session =
          .ok encoded session)
      (Halted base holding) := by
  have headerFits : keySize + Value.partialHeaderSize ≤ maxInlineEntry :=
    Nat.le_trans (Nat.add_le_add_right keyFits _) (by decide)
  have encodes : Ends ((TreeM.ofPager (Value.encode keySize value) : TreeM σ Bytes)
        holding.session)
      (Value.Encoded keySize value holding.session)
      (fun failure session => Halted base holding failure { holding with session }) := by
    apply SessionM.relabel_ends
    apply Ends.mono (Value.encode_ends headerFits value addressable holding.session nonempty)
      fun _ _ => id
    rintro failure session ⟨⟨⟨error, rfl⟩, appended, full⟩, _⟩
    exact Halted.of_longer undoable ⟨error, rfl⟩ appended.longer appended.calm full
  apply HoldingM.within_ends
  apply (encodes.and (Ends.self _ _)).mono
  · rintro encoded session ⟨stored, given⟩
    exact ⟨session, rfl, stored, given⟩
  · rintro failure session ⟨halted, _⟩
    exact halted

/-- Writing an entry gives the key its value. If the pager fails, the contents survive with the
entry or without it. -/
theorem put_ends (maintains : Maintains base limit outline contents holding)
    (bounded : limit ≤ 255) (roomy : holding.held.tree.config.maxEntries ≤ limit)
    (short : key.length ≤ maxKeySize) (addressable : value.length < Word.signedLimit) :
    Ends (put key value holding)
      (fun _ after => Entered base limit outline contents key value holding after)
      (Interrupted base limit outline contents key value holding) := by
  have halts : ∀ failure after, Halted base holding failure after →
      Interrupted base limit outline contents key value holding failure after :=
    fun _ _ halted => maintains.interrupted halted key value
  simp only [put]
  rw [HoldingM.held_bind]
  have descends := maintains.keeps.descend_consults (σ := σ) key
  apply Ends.bind (Ends.mono (consult_ends maintains.undoable descends) (fun _ _ => id) halts)
  rintro found _ ⟨⟨front, sheet, back, landing, reached, notReached⟩, session, rfl, still, search⟩
  rcases maintains.keeps.exists_spot landing.sheets_eq reached notReached with
    ⟨less, same, more, spot⟩
  have holds := landing.holds
  rw [spot.records_eq] at holds
  rw [Ends.lift_bind (spot.around.find_eq holds)]
  have first := Advances.of_still still
  have undoableStill : Undoable base holding.held session.pages := by
    rw [still.pages_eq]
    exact maintains.undoable
  have nonempty : 0 < session.pages.length := by
    rw [still.pages_eq]
    exact Nat.lt_of_le_of_lt (Nat.zero_le _) (PageList.position_lt maintains.keeps.anchored)
  apply Ends.bind (Ends.mono (encode_ends undoableStill nonempty short addressable)
    (fun _ _ => id) fun failure after fails => halts failure after (first.halted rfl fails))
  rintro encoded _ ⟨later, rfl, stored, given⟩
  have second :=
    first.then_untouched (Advances.of_longer stored.appended.longer stored.appended.calm)
  -- So far no page has changed: a leaf was looked for, and overflow pages were appended.
  have prepared : Prepared base limit outline contents key encoded value holding
      { holding with session := later } := by
    refine ⟨maintains, second, rfl, ⟨short, stored.small⟩, stored.decodes, ?_, ?_⟩
    · rw [← still.pages_eq]
      exact stored.spans_new
    · rcases stored.parts with ⟨parts, pages_eq, _⟩
      refine ⟨parts, ?_⟩
      rw [← still.pages_eq]
      exact pages_eq
  have landingLater : Landing later.pages outline found front sheet back := by
    apply landing.keep
    rw [← still.pages_eq]
    exact includes_of_longer stored.appended.longer
  have entered : ∀ (_ : Unit) (after : Holding Transaction σ),
      Stowed base limit outline contents key encoded value found holding
        { holding with session := later } after →
      Entered base limit outline contents key value holding after := by
    rintro _ after ⟨continues, grown, placed⟩
    exact ⟨continues, found, encoded, later, grown, ⟨session, search, given⟩, placed⟩
  -- The key is new, or it has a value already.
  rcases spot.around.same with rfl | ⟨old, rfl⟩
  · simp only [List.append_nil, ne_eq, not_true_eq_false, decide_false, Bool.false_eq_true,
      if_false]
    exact (addRecord_ends prepared bounded roomy landingLater spot).mono entered fun _ _ => id
  · simp only [ne_eq, List.cons_ne_nil, not_false_eq_true, decide_true, if_true,
      List.length_append, List.length_singleton, Nat.add_sub_cancel]
    exact (setRecord_ends prepared bounded roomy landingLater spot).mono entered fun _ _ => id

end Write

end Transaction

end PagedMap
