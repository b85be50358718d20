import PagedMap.Proofs.Tree.Runs

/-!
# The structure of a tree

From the root, children lead to nodes and then to leaves, all at the same depth, and to no page
twice. Every page is in order and within its limits, every key of a node is the least key to its
right, and the chain of leaves passes the leaves from left to right. All this follows from the
outline of the tree: its levels are put together to branches, from the leaves up to the root.
-/

namespace PagedMap

open PageList (fetch)

/-! ## Pages in order -/

/-- A leaf holds records in the order of their keys, not more than the limit. Its header counts the
bytes of its regions, and they do not overlap. -/
structure Leaf.Proper (limit : Nat) (leaf : Leaf) (records : List Record) : Prop where
  holds : leaf.Holds records
  ascending : Ascending Prod.fst records
  slim : records.length ≤ limit
  room : leaf.counters.head.toNat + leaf.counters.tail.toNat ≤ leafCapacity

/-- A node holds keys in their order, at least one and not more than the limit. Its header counts
the bytes of its regions, and they do not overlap. -/
structure Node.Proper (limit : Nat) (node : Node) (keys : List Bytes) (children : List PageIndex) :
    Prop where
  holds : node.Holds keys children
  nonempty : keys ≠ []
  ascending : keys.Pairwise (· < ·)
  slim : keys.length ≤ limit
  room : node.counters.head.toNat + node.counters.tail.toNat ≤ nodeCapacity

/-! ## Branches -/

/-- What is reached from a page: pages, the page itself among them, and leaves from left to
right. -/
structure Branch where
  index : PageIndex
  reached : List PageIndex
  sheets : List Sheet

/-- The records of the leaves. -/
def Branch.records (branch : Branch) : List Record := branch.sheets.flatMap Sheet.records

/-- A key is the least one among records. -/
structure LeastKey (key : Bytes) (records : List Record) : Prop where
  present : ∃ record ∈ records, record.1 = key
  least : ∀ record ∈ records, key ≤ record.1

/-- Pages have a branch with all its leaves at a depth below its first page. -/
inductive Grown (limit : Nat) (pages : List Page) : Nat → Branch → Prop where
  | leaf {sheet : Sheet} {leaf : Leaf} (fetched : fetch pages sheet.index = some leaf.toPage)
      (proper : leaf.Proper limit sheet.records) (next_eq : leaf.next = sheet.next) :
      Grown limit pages 0 ⟨sheet.index, [sheet.index], [sheet]⟩
  | node {depth : Nat} {index : PageIndex} {node : Node} {keys : List Bytes}
      {branches : List Branch} (fetched : fetch pages index = some node.toPage)
      (proper : node.Proper limit keys (branches.map Branch.index))
      (grown : ∀ branch ∈ branches, Grown limit pages depth branch)
      (routes : ∀ (place : Nat) (key : Bytes) (left right : Branch), keys[place]? = some key →
        branches[place]? = some left → branches[place + 1]? = some right →
        LeastKey key right.records ∧ ∀ record ∈ left.records, record.1 < key) :
      Grown limit pages (depth + 1)
        ⟨index, index :: branches.flatMap Branch.reached, branches.flatMap Branch.sheets⟩

/-- A branch is the whole of a tree. -/
structure Branch.Spans (limit : Nat) (pages : List Page) (tree : Tree) (branch : Branch) :
    Prop where
  grown : ∃ depth, Grown limit pages depth branch
  rooted : branch.index = tree.anchor.root
  once : branch.reached.Nodup
  filled : ∀ sheet ∈ branch.sheets, sheet.index ≠ tree.anchor.root → sheet.records ≠ []
  ascending : Ascending Prod.fst branch.records
  chained : ∃ first, Chained first branch.sheets tree.anchor.sentinel
  apart : tree.anchor.sentinel ∉ branch.reached

/-- Pages have a tree that is in order, with at most `limit` keys on a page. -/
def Tree.Structured (limit : Nat) (pages : List Page) (tree : Tree) : Prop :=
  ∃ branch : Branch, branch.Spans limit pages tree

/-! ## Rows of branches -/

/-- A branch as a level of the outline sees it. -/
structure Limb where
  link : Link
  branch : Branch

/-- Branches side by side, all of the same depth. The records of every branch but the first begin
with the least key of the branch. -/
structure Row (limit : Nat) (pages : List Page) (depth : Nat) (limbs : List Limb) : Prop where
  grown : ∀ limb ∈ limbs, Grown limit pages depth limb.branch
  index_eq : ∀ limb ∈ limbs, limb.branch.index = limb.link.index
  headed : ∀ limb ∈ limbs.tail,
    limb.branch.records.head?.map Prod.fst = some limb.link.low
  ascending : Ascending Prod.fst (limbs.flatMap fun limb => limb.branch.records)

namespace Row

variable {limit depth : Nat} {pages : List Page} {limbs front part back : List Limb}
  {group : Group} {level : Level} {left right : Limb}

/-- A part of a row is a row. -/
theorem inner (row : Row limit pages depth (front ++ part ++ back)) :
    Row limit pages depth part where
  grown limb member := row.grown limb (by simp [member])
  index_eq limb member := row.index_eq limb (by simp [member])
  headed limb member := by
    apply row.headed limb
    cases front with
    | nil =>
        cases part with
        | nil => contradiction
        | cons first rest => exact List.mem_append_left _ member
    | cons head others =>
        change limb ∈ others ++ part ++ back
        simp [List.mem_of_mem_tail member]
  ascending := by
    apply row.ascending.sublist
    rw [List.flatMap_append, List.flatMap_append, List.append_assoc]
    exact (List.sublist_append_left _ _).trans (List.sublist_append_right _ _)

/-- The least key of a branch is the least key among its records, and the records to the left have
lesser keys. -/
theorem least (row : Row limit pages depth (front ++ left :: right :: back)) :
    LeastKey right.link.low right.branch.records ∧
      ∀ record ∈ left.branch.records, record.1 < right.link.low := by
  have headed := row.headed right (by cases front <;> simp)
  have ascending := row.ascending
  rw [List.flatMap_append, List.flatMap_cons, List.flatMap_cons] at ascending
  rcases List.pairwise_append.mp (List.pairwise_append.mp ascending).2.1 with
    ⟨_, behind, across⟩
  cases records_eq : right.branch.records with
  | nil =>
      rw [records_eq] at headed
      contradiction
  | cons head rest =>
      rw [records_eq] at headed behind across
      injection headed with low_eq
      rw [← low_eq]
      refine ⟨⟨⟨head, List.mem_cons_self, rfl⟩, ?_⟩, ?_⟩
      · intro record member
        rcases List.mem_cons.mp member with rfl | inRest
        · exact List.le_refl _
        · have later := (List.pairwise_cons.mp behind).1 record (by simp [inRest])
          grind
      · intro record member
        exact across record member head (by simp)

theorem exists_pair {place : Nat} (leftThere : part[place]? = some left)
    (rightThere : part[place + 1]? = some right) :
    part = part.take place ++ left :: right :: part.drop (place + 2) := by
  rcases List.getElem?_eq_some_iff.mp leftThere with ⟨leftInside, rfl⟩
  rcases List.getElem?_eq_some_iff.mp rightThere with ⟨rightInside, rfl⟩
  rw [← List.drop_eq_getElem_cons rightInside, ← List.drop_eq_getElem_cons leftInside,
    List.take_append_drop]

/-- The limbs that a group joins. -/
def joined (part : Group × List Limb) : Limb :=
  ⟨part.1.link, part.1.index,
    part.1.index :: (part.2.map Limb.branch).flatMap Branch.reached,
    (part.2.map Limb.branch).flatMap Branch.sheets⟩

theorem records_joined (part : Group × List Limb) :
    (joined part).branch.records = part.2.flatMap fun limb => limb.branch.records := by
  simp [joined, Branch.records, List.flatMap_map, List.flatMap_assoc]

/-- A node joins the branches that its children lead to. -/
theorem grown_joined (row : Row limit pages depth part) (stored : group.Stored pages)
    (several : 2 ≤ group.links.length) (slim : group.links.length ≤ limit + 1)
    (ascends : Ascends group.links) (links_eq : part.map Limb.link = group.links) :
    Grown limit pages (depth + 1) (joined (group, part)).branch := by
  rcases stored with ⟨node, fetched, holds⟩
  have children_eq : group.children = (part.map Limb.branch).map Branch.index := by
    rw [Group.children, ← links_eq, List.map_map, List.map_map]
    apply List.map_congr_left
    intro limb member
    exact (row.index_eq limb member).symm
  rw [children_eq] at holds
  have keys_length : group.keys.length + 1 = group.links.length := by
    rw [Group.keys, List.length_map, List.length_tail]
    omega
  apply Grown.node fetched ⟨holds, ?_, ?_, ?_, ?_⟩
  · intro branch member
    rcases List.mem_map.mp member with ⟨limb, inPart, rfl⟩
    exact row.grown limb inPart
  · -- The key between two children is the least key of the right one.
    intro place key left right keyed leftThere rightThere
    rw [List.getElem?_map, Option.map_eq_some_iff] at leftThere rightThere
    rcases leftThere with ⟨leftLimb, leftThere, rfl⟩
    rcases rightThere with ⟨rightLimb, rightThere, rfl⟩
    rw [Group.keys, ← links_eq, List.getElem?_map, List.getElem?_tail, List.getElem?_map,
      rightThere] at keyed
    injection keyed with key_eq
    rw [← key_eq]
    rw [exists_pair leftThere rightThere] at row
    exact row.least
  · intro empty
    rw [empty] at keys_length
    simp at keys_length
    omega
  · rw [Group.keys, List.pairwise_map]
    exact ascends.sublist (List.tail_sublist _)
  · omega
  · rw [holds.head_eq, holds.tail_eq, holds.arity, Node.footprint_add_children]
    exact holds.fits

/-- A row can be cut into parts, one for each node of the level above. -/
theorem exists_parts (divides : level.flatMap Group.links = limbs.map Limb.link) :
    ∃ parts : List (Group × List Limb), parts.map Prod.fst = level ∧
      parts.flatMap Prod.snd = limbs ∧
      ∀ part ∈ parts, part.2.map Limb.link = part.1.links := by
  induction level generalizing limbs with
  | nil =>
      refine ⟨[], rfl, ?_, by simp⟩
      rw [List.flatMap_nil] at divides
      rw [List.flatMap_nil, List.map_eq_nil_iff.mp divides.symm]
  | cons group rest ih =>
      rw [List.flatMap_cons] at divides
      rcases List.map_eq_append_iff.mp divides.symm with ⟨own, others, rfl, own_eq, others_eq⟩
      rcases ih others_eq.symm with ⟨parts, rfl, rfl, links_eq⟩
      refine ⟨(group, own) :: parts, rfl, rfl, ?_⟩
      intro part member
      rcases List.mem_cons.mp member with rfl | inRest
      · exact own_eq
      · exact links_eq part inRest

/-- The nodes of a level join the branches below them to a row of branches. -/
theorem lift {parts : List (Group × List Limb)}
    (row : Row limit pages depth (parts.flatMap Prod.snd))
    (links_eq : ∀ part ∈ parts, part.2.map Limb.link = part.1.links)
    (stored : ∀ part ∈ parts, part.1.Stored pages)
    (several : ∀ part ∈ parts, 2 ≤ part.1.links.length)
    (slim : ∀ part ∈ parts, part.1.links.length ≤ limit + 1)
    (ascends : ∀ part ∈ parts, Ascends part.1.links) :
    Row limit pages (depth + 1) (parts.map joined) where
  grown := by
    intro limb member
    rcases List.mem_map.mp member with ⟨⟨group, part⟩, inParts, rfl⟩
    rcases List.append_of_mem inParts with ⟨before, after, rfl⟩
    rw [List.flatMap_append, List.flatMap_cons, ← List.append_assoc] at row
    have own : Row limit pages depth part := row.inner
    exact own.grown_joined (stored (group, part) inParts) (several (group, part) inParts)
      (slim (group, part) inParts) (ascends (group, part) inParts) (links_eq (group, part) inParts)
  index_eq := by
    intro limb member
    rcases List.mem_map.mp member with ⟨part, _, rfl⟩
    rfl
  headed := by
    intro limb member
    rw [← List.map_tail] at member
    rcases List.mem_map.mp member with ⟨⟨group, part⟩, inTail, rfl⟩
    cases parts with
    | nil => contradiction
    | cons first rest =>
        have inRest : (group, part) ∈ rest := inTail
        have firstNonempty : first.2 ≠ [] := by
          intro empty
          have linked := several first List.mem_cons_self
          rw [← links_eq first List.mem_cons_self, empty] at linked
          contradiction
        have own := links_eq (group, part) (List.mem_cons_of_mem _ inRest)
        have linked := several (group, part) (List.mem_cons_of_mem _ inRest)
        cases part with
        | nil =>
            rw [← own] at linked
            contradiction
        | cons head others =>
            -- The least key of a node is that of its first branch, which is not the first of the
            -- row.
            have low_eq : group.low = head.link.low := by
              change (group.links.head?.map Link.low).getD [] = _
              rw [← own]
              rfl
            have headed := row.headed head (by
              rw [List.flatMap_cons, List.tail_append_of_ne_nil firstNonempty]
              apply List.mem_append_right
              exact List.mem_flatMap_of_mem inRest List.mem_cons_self)
            rw [records_joined, List.flatMap_cons, List.head?_append]
            change _ = some group.low
            rw [low_eq]
            cases records_eq : head.branch.records with
            | nil =>
                rw [records_eq] at headed
                contradiction
            | cons record records =>
                rw [records_eq] at headed
                exact headed
  ascending := by
    have same : (parts.map joined).flatMap (fun limb => limb.branch.records) =
        (parts.flatMap Prod.snd).flatMap fun limb => limb.branch.records := by
      simp only [List.flatMap_map, List.flatMap_assoc, records_joined]
    rw [same]
    exact row.ascending

/-- With a node put over each part of a row, the branches reach these nodes and what they reached
before. -/
theorem reached_joined (parts : List (Group × List Limb)) :
    ((parts.map joined).flatMap fun limb => limb.branch.reached).Perm
      (parts.map (fun part => part.1.index) ++
        (parts.flatMap Prod.snd).flatMap fun limb => limb.branch.reached) := by
  induction parts with
  | nil => exact List.Perm.refl _
  | cons part rest ih =>
      rcases part with ⟨group, part⟩
      simp only [List.map_cons, List.flatMap_cons, List.flatMap_append, joined, List.flatMap_map,
        List.cons_append] at ih ⊢
      refine List.Perm.cons _ ?_
      refine (ih.append_left _).trans ?_
      rw [← List.append_assoc, ← List.append_assoc]
      exact List.perm_append_comm.append_right _

/-- Levels of nodes join a row of branches to one branch. -/
theorem exists_branch {levels : List Level} {root : PageIndex}
    (row : Row limit pages depth limbs) (rises : Rises (limbs.map Limb.link) levels [⟨[], root⟩])
    (stored : ∀ group ∈ levels.flatten, group.Stored pages)
    (several : ∀ group ∈ levels.flatten, 2 ≤ group.links.length)
    (slim : ∀ group ∈ levels.flatten, group.links.length ≤ limit + 1)
    (ascends : ∀ group ∈ levels.flatten, Ascends group.links) :
    ∃ branch, Grown limit pages (depth + levels.length) branch ∧ branch.index = root ∧
      branch.sheets = (limbs.flatMap fun limb => limb.branch.sheets) ∧
      branch.reached.Perm (levels.flatten.map Group.index ++
        limbs.flatMap fun limb => limb.branch.reached) := by
  induction levels generalizing depth limbs with
  | nil =>
      rcases List.map_eq_singleton_iff.mp rises with ⟨limb, rfl, link_eq⟩
      refine ⟨limb.branch, row.grown limb List.mem_cons_self, ?_, by simp, by simp⟩
      rw [row.index_eq limb List.mem_cons_self, link_eq]
  | cons level above ih =>
      rcases rises with ⟨divides, rises⟩
      rcases exists_parts divides with ⟨parts, rfl, rfl, links_eq⟩
      have inLevels : ∀ part ∈ parts, part.1 ∈ (parts.map Prod.fst :: above).flatten := by
        intro part member
        rw [List.flatten_cons]
        exact List.mem_append_left _ (List.mem_map_of_mem member)
      have inAbove : ∀ group ∈ above.flatten, group ∈ (parts.map Prod.fst :: above).flatten := by
        intro group member
        rw [List.flatten_cons]
        exact List.mem_append_right _ member
      have lifted := row.lift links_eq (fun part member => stored _ (inLevels part member))
        (fun part member => several _ (inLevels part member))
        (fun part member => slim _ (inLevels part member))
        (fun part member => ascends _ (inLevels part member))
      have links_joined : (parts.map joined).map Limb.link =
          (parts.map Prod.fst).map Group.link := by
        rw [List.map_map, List.map_map]
        rfl
      rw [← links_joined] at rises
      rcases ih lifted rises (fun group member => stored group (inAbove group member))
        (fun group member => several group (inAbove group member))
        (fun group member => slim group (inAbove group member))
        (fun group member => ascends group (inAbove group member)) with
        ⟨branch, grown, index_eq, sheets_eq, reached⟩
      refine ⟨branch, ?_, index_eq, ?_, ?_⟩
      · rw [List.length_cons, Nat.add_comm above.length, ← Nat.add_assoc]
        exact grown
      · rw [sheets_eq]
        simp only [joined, List.flatMap_map, List.flatMap_assoc]
      · apply reached.trans
        apply ((reached_joined parts).append_left _).trans
        rw [List.flatten_cons, List.map_append, List.map_map, ← List.append_assoc]
        exact List.perm_append_comm.append_right _

end Row

/-! ## Kept trees -/

namespace Keeps

variable {limit : Nat} {pages : List Page} {tree : Tree} {outline : Outline} {contents : Contents}

/-- A leaf as a branch of its own. -/
def limbOf (sheet : Sheet) : Limb := ⟨sheet.link, sheet.index, [sheet.index], [sheet]⟩

theorem limbs_records (sheets : List Sheet) :
    ((sheets.map limbOf).flatMap fun limb => limb.branch.records) =
      sheets.flatMap Sheet.records := by
  simp [limbOf, Branch.records, List.flatMap_map]

/-- The leaves of a tree that is kept are a row of branches without nodes. -/
theorem row (keeps : Keeps limit pages tree outline contents) :
    Row limit pages 0 (outline.sheets.map limbOf) where
  grown := by
    intro limb member
    rcases List.mem_map.mp member with ⟨sheet, inSheets, rfl⟩
    rcases keeps.shelf.stored sheet inSheets with ⟨leaf, fetched, next_eq, holds⟩
    have ascending := keeps.shelf.ordered.ascending
    rcases List.append_of_mem inSheets with ⟨front, back, sheets_eq⟩
    rw [sheets_eq, List.flatMap_append, List.flatMap_cons] at ascending
    have own := (List.pairwise_append.mp (List.pairwise_append.mp ascending).2.1).1
    apply Grown.leaf fetched ⟨holds, own, keeps.shelf.slim sheet inSheets, ?_⟩ next_eq
    rw [holds.head_eq, holds.tail_eq, Leaf.footprint_add_footprint]
    exact holds.fits
  index_eq := by
    intro limb member
    rcases List.mem_map.mp member with ⟨sheet, _, rfl⟩
    rfl
  headed := by
    intro limb member
    rcases keeps.shelf.ordered.leftmost with ⟨first, rest, sheets_eq, _, _, headed⟩
    rw [sheets_eq] at member
    rcases List.mem_map.mp member with ⟨sheet, inRest, rfl⟩
    have own : (limbOf sheet).branch.records = sheet.records := by
      simp [limbOf, Branch.records]
    rw [own]
    exact headed sheet inRest
  ascending := by
    rw [limbs_records]
    exact keeps.shelf.ordered.ascending

/-- If there is only one leaf, it is the root. -/
theorem eq_root_of_single {sheet : Sheet} (scaffold : Scaffold limit pages [sheet.link]
    outline.levels tree.anchor.root) : sheet.index = tree.anchor.root := by
  have rises := scaffold.rises
  cases levels_eq : outline.levels with
  | nil =>
      rw [levels_eq] at rises
      injection rises with link_eq _
      exact congrArg Link.index link_eq
  | cons level above =>
      rw [levels_eq] at rises
      have lengths := congrArg List.length rises.1
      cases level with
      | nil => contradiction
      | cons group rest =>
          have several := scaffold.several group (by simp [levels_eq])
          simp only [List.flatMap_cons, List.length_append, List.length_singleton] at lengths
          omega

/-- From the root there is a branch with the leaves of the outline, as deep as there are levels, and
the pages that it reaches are the nodes and the leaves. -/
theorem exists_branch (keeps : Keeps limit pages tree outline contents) :
    ∃ branch, Grown limit pages outline.levels.length branch ∧ branch.index = tree.anchor.root ∧
      branch.sheets = outline.sheets ∧
      branch.reached.Perm (outline.levels.flatten.map Group.index ++
        outline.sheets.map Sheet.index) := by
  have scaffold := keeps.scaffold
  have shelf := keeps.shelf
  have links_eq : (outline.sheets.map limbOf).map Limb.link = outline.sheets.map Sheet.link := by
    rw [List.map_map]
    rfl
  have rises := scaffold.rises
  have everywhere := rises.ascends shelf.ordered.ascends scaffold.links_ne_nil
  rw [← links_eq] at rises
  rcases keeps.row.exists_branch rises scaffold.stored scaffold.several scaffold.slim (by
      intro group member
      rcases List.mem_flatten.mp member with ⟨level, inLevels, inLevel⟩
      rcases List.append_of_mem inLevel with ⟨before, after, rfl⟩
      apply (everywhere _ inLevels).sublist
      rw [List.flatMap_append, List.flatMap_cons]
      exact (List.sublist_append_left _ _).trans (List.sublist_append_right _ _)) with
    ⟨branch, grown, index_eq, sheets_eq, reached⟩
  have reachedSheets : ((outline.sheets.map limbOf).flatMap fun limb => limb.branch.reached) =
      outline.sheets.map Sheet.index := by
    rw [List.flatMap_map, List.map_eq_flatMap]
    rfl
  rw [reachedSheets] at reached
  rw [Nat.zero_add] at grown
  refine ⟨branch, grown, index_eq, ?_, reached⟩
  rw [sheets_eq]
  simp [limbOf, List.flatMap_map]

theorem nodup_indices (keeps : Keeps limit pages tree outline contents) :
    (outline.levels.flatten.map Group.index ++ outline.sheets.map Sheet.index).Nodup := by
  rw [List.nodup_append]
  refine ⟨keeps.scaffold.distinct, (List.nodup_cons.mp keeps.shelf.distinct).2, ?_⟩
  intro index inNodes other inLeaves same
  rcases List.mem_map.mp inNodes with ⟨group, inLevels, rfl⟩
  rcases List.mem_map.mp inLeaves with ⟨sheet, inSheets, rfl⟩
  exact (keeps.scaffold.stored group inLevels).ne_sheet (keeps.shelf.stored sheet inSheets) same

/-- Pages that keep a tree have it in order. -/
theorem structured (keeps : Keeps limit pages tree outline contents) :
    tree.Structured limit pages := by
  have scaffold := keeps.scaffold
  have shelf := keeps.shelf
  rcases keeps.exists_branch with ⟨branch, grown, index_eq, sheets_same, reached⟩
  have distinct := List.nodup_cons.mp shelf.distinct
  refine ⟨branch, ⟨_, grown⟩, index_eq, ?_, ?_, ?_, ?_, ?_⟩
  · rw [reached.nodup_iff]
    exact keeps.nodup_indices
  · intro sheet member notRoot
    rw [sheets_same] at member
    rcases shelf.ordered.leftmost with ⟨first, rest, all_eq, _, nonempty, headed⟩
    rw [all_eq] at member
    rcases List.mem_cons.mp member with rfl | inRest
    · apply nonempty
      rintro rfl
      rw [all_eq] at scaffold
      exact notRoot (eq_root_of_single scaffold)
    · intro empty
      have head := headed sheet inRest
      rw [Sheet.Headed, empty] at head
      contradiction
  · rw [Branch.records, sheets_same]
    exact shelf.ordered.ascending
  · rw [sheets_same]
    exact shelf.chained
  · intro member
    rcases List.mem_append.mp (reached.mem_iff.mp member) with inNodes | inLeaves
    · rcases List.mem_map.mp inNodes with ⟨group, inLevels, same⟩
      rcases scaffold.stored group inLevels with ⟨node, fetched, _⟩
      exact ne_of_kind fetched node.kind?_toPage keeps.ended (Leaf.kind?_toPage _) (by decide) same
    · exact distinct.1 inLeaves

end Keeps

/-! ## Runs -/

/-- The tree that a client has, if it has one. -/
def Client.tree? : Client → Option Tree
  | .closed => none
  | .resting tree => some tree
  | .changing transaction => some transaction.tree

variable {σ : Type} [Pager σ] [AtomicPager σ] {index : PageIndex} {session after : Session σ}

/-- A sound state has a tree in order, at rest and during a transaction. -/
theorem Sound.structured {limit count : Nat} {account : Account} {client : Client} {tree : Tree}
    (sound : Sound index limit count account client session) (has : client.tree? = some tree) :
    tree.Structured limit session.pages := by
  cases sound with
  | unopened creatable calm => contradiction
  | resting rests =>
      injection has with tree_eq
      subst tree_eq
      rcases rests.keeps with ⟨outline, keeps⟩
      exact keeps.structured
  | changing changes =>
      injection has with tree_eq
      subst tree_eq
      rcases changes.maintains with ⟨base, outline, earlier, maintains, _⟩
      exact maintains.keeps.structured

/-- In every state that a run with one configuration reaches on a calm pager, the tree is in
order, also during a transaction. -/
theorem run_structured {actions : List Action} {client : Client} {tree : Tree} (config : Config)
    (calm : session.Calm) (creatable : Creatable session.pages index)
    (configured : ∀ other, .opening other ∈ actions → other = config)
    (ran : Client.run index actions .closed session = .ok client after)
    (has : client.tree? = some tree) : tree.Structured config.maxEntries after.pages := by
  have admitted : ∀ action ∈ actions, action.Admitted config.maxEntries := by
    apply Action.admitted
    intro other member
    exact Nat.le_of_eq (congrArg Config.maxEntries (configured other member))
  have sound : Sound index config.maxEntries 0 .unopened .closed session :=
    .unopened creatable calm
  exact ((sound.run_ends config.maxEntries_le admitted).of_ok ran).1.structured has

/-- In an empty memory, a tree is in order after four keys were inserted. Then there are two leaves
under a node. -/
theorem run_structured_memory : ∃ client after tree,
    Client.run 0 (insertingBytes fourChildren [1, 2, 3, 4]) .closed
        (⟨⟨[]⟩, []⟩ : Session Memory) = .ok client after ∧ client.tree? = some tree ∧
      (fetch after.pages tree.anchor.root).bind Page.kind? = some .node ∧
      tree.Structured fourChildren.maxEntries after.pages := by
  have calm : Session.Calm (⟨⟨[]⟩, []⟩ : Session Memory) := trivial
  have runs : Ends (Client.run 0 (insertingBytes fourChildren [1, 2, 3, 4]) .closed
        (⟨⟨[]⟩, []⟩ : Session Memory))
      (fun client after => client.tree?.isSome = true ∧ ∀ tree ∈ client.tree?,
        (fetch after.pages tree.anchor.root).bind Page.kind? = some .node)
      (fun _ _ => False) := by
    decide +kernel
  rcases runs.exists_ok (fun _ _ => id) with ⟨client, after, ran, isSome, isNode⟩
  rcases Option.isSome_iff_exists.mp isSome with ⟨tree, has⟩
  refine ⟨client, after, tree, ran, has, isNode tree has, ?_⟩
  apply run_structured fourChildren calm (Or.inl rfl) _ ran has
  intro other member
  simpa [insertingBytes] using member

end PagedMap
