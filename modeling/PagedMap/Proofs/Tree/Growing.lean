import PagedMap.Proofs.Tree.Structure

/-!
# How trees grow

Writing an entry may split the leaf where it belongs, and a separator goes to the nodes above. It
comes to rest at the first node that has room, and nothing above this node changes. If no node has
room, a new root is put above the old one, and only then all leaves get deeper, by one. Which of
this happens is decided by the pages on the way to the leaf, as they were before.
-/

namespace PagedMap

open PageList (fetch)

/-! ## Depths -/

/-- A tree is in order, and all its leaves are at a depth below the root. -/
structure Tree.LeavesAt (limit : Nat) (pages : List Page) (tree : Tree) (depth : Nat) : Prop where
  structured : tree.Structured limit pages
  only : ∀ (branch : Branch) (other : Nat), branch.Spans limit pages tree →
    Grown limit pages other branch → other = depth

section

variable {limit depth other : Nat} {pages : List Page} {branch another : Branch}

/-- The depth of the leaves depends only on the page where a branch begins. -/
theorem Grown.depth_eq (grown : Grown limit pages depth branch)
    (otherGrown : Grown limit pages other another) (index_eq : another.index = branch.index) :
    other = depth := by
  induction grown generalizing other another with
  | leaf fetched _ _ =>
      cases otherGrown with
      | leaf _ _ _ => rfl
      | node otherFetched _ _ _ =>
          exact (ne_of_kind otherFetched (Node.kind?_toPage _) fetched (Leaf.kind?_toPage _)
            (by decide) index_eq).elim
  | @node below index node keys branches fetched proper grown routes ih =>
      cases otherGrown with
      | leaf otherFetched _ _ =>
          exact (ne_of_kind otherFetched (Leaf.kind?_toPage _) fetched (Node.kind?_toPage _)
            (by decide) index_eq).elim
      | @node otherBelow _ otherNode otherKeys others otherFetched otherProper otherGrown _ =>
          have same : otherNode.toPage = node.toPage := by
            rw [← Option.some_inj, ← otherFetched, ← fetched]
            exact congrArg (fetch pages) index_eq
          obtain rfl := Node.toPage_inj same
          have children_eq := otherProper.holds.children_eq.symm.trans proper.holds.children_eq
          injection children_eq with indices_eq
          have arity := proper.holds.arity
          cases branches with
          | nil => simp at arity
          | cons first rest =>
              rcases List.map_eq_cons_iff.mp indices_eq with ⟨head, tail, rfl, head_eq, _⟩
              rw [ih first List.mem_cons_self (otherGrown head List.mem_cons_self) head_eq]

theorem Grown.exists_page (grown : Grown limit pages depth branch) :
    ∃ page, fetch pages branch.index = some page := by
  cases grown with
  | leaf fetched _ _ => exact ⟨_, fetched⟩
  | node fetched _ _ _ => exact ⟨_, fetched⟩

/-- A node with one key has a branch on either side, and the key is the least one on the right. -/
theorem Grown.of_single {node : Node} {key : Bytes} {left right : PageIndex}
    (grown : Grown limit pages depth branch)
    (fetched : fetch pages branch.index = some node.toPage)
    (reads : node.Reads [key] [left, right]) :
    ∃ below sibling, Grown limit pages below sibling ∧ sibling.index = right ∧
      LeastKey key sibling.records := by
  cases grown with
  | leaf leafFetched _ _ =>
      exact (ne_of_kind leafFetched (Leaf.kind?_toPage _) fetched (Node.kind?_toPage _)
        (by decide) rfl).elim
  | @node below index own keys branches ownFetched proper grown routes =>
      obtain rfl := Node.toPage_inj (Option.some_inj.mp (ownFetched.symm.trans fetched))
      cases proper.holds.keys_eq.symm.trans reads.keys_eq
      have children_eq := proper.holds.children_eq.symm.trans reads.children_eq
      injection children_eq with indices_eq
      rcases List.map_eq_cons_iff.mp indices_eq with ⟨first, rest, rfl, _, rest_eq⟩
      rcases List.map_eq_singleton_iff.mp rest_eq with ⟨sibling, rfl, index_eq⟩
      exact ⟨below, sibling, grown sibling (by simp), index_eq,
        (routes 0 key first sibling rfl rfl rfl).1⟩

end

theorem Keeps.leavesAt {limit : Nat} {pages : List Page} {tree : Tree} {outline : Outline}
    {contents : Contents} (keeps : Keeps limit pages tree outline contents) :
    tree.LeavesAt limit pages outline.levels.length where
  structured := keeps.structured
  only := by
    intro branch other spans otherGrown
    rcases keeps.exists_branch with ⟨whole, grown, index_eq, _⟩
    exact grown.depth_eq otherGrown (spans.rooted.trans index_eq.symm)

/-! ## Ways through the nodes -/

section

variable {front back : List Link} {path below above : List Step} {step other : Step}
  {levels : List Level}

theorem Trail.ne_above (trail : Trail front back (below ++ step :: above) levels)
    (distinct : (levels.flatten.map Group.index).Nodup) (member : other ∈ above) :
    ∀ lower ∈ below ++ [step], other.index ≠ lower.index := by
  intro lower isLower same
  have once := distinct.sublist trail.indices_sublist
  rw [List.append_cons, List.map_append, List.nodup_append] at once
  exact once.2.2 _ (List.mem_map_of_mem isLower) _ (List.mem_map_of_mem member) same.symm

end

/-- A page is there and was not overwritten. -/
def Untouched (before after : List Page) (index : PageIndex) : Prop :=
  ∃ page, fetch before index = some page ∧ fetch after index = some page

theorem IncludesApart.untouched {touched : PageIndex → Prop} {before after : List Page}
    {index : PageIndex} {page : Page} (includes : IncludesApart touched before after)
    (fetched : fetch before index = some page) (apart : ¬touched index) :
    Untouched before after index :=
  ⟨page, fetched, includes index page apart fetched⟩

/-! ## What inserting does -/

/-- A record does not fit into the leaf where a search ended, no node on the way there has room for
the separator that comes from below, and a last key gets past the root. -/
def Descent.Outgrows (maxEntries : Nat) (found : Descent) (record : Record) (last : Bytes) : Prop :=
  found.Overflows maxEntries record ∧ ∃ separator, found.Separates record separator ∧
    Lifts maxEntries found.path separator last

theorem Descent.Outgrows.unique {maxEntries : Nat} {found : Descent} {record : Record}
    {last other : Bytes} (outgrows : found.Outgrows maxEntries record last)
    (otherwise : found.Outgrows maxEntries record other) : other = last := by
  rcases outgrows with ⟨_, separator, separates, lifts⟩
  rcases otherwise with ⟨_, again, separatesAgain, liftsAgain⟩
  rw [separates.unique separatesAgain] at liftsAgain
  exact lifts.unique liftsAgain

namespace Transaction

variable {σ : Type} [Pager σ] [AtomicPager σ]

/-- A new root has one key and two children. The left one is the old root, and the key is the least
one that the right one leads to. All leaves are deeper by one. -/
structure NewRoot (limit : Nat) (last : Bytes) (before after : Holding Transaction σ) : Prop where
  reads : ∃ (node : Node) (right : PageIndex),
    fetch after.session.pages after.held.tree.anchor.root = some node.toPage ∧
      node.Reads [last] [before.held.tree.anchor.root, right] ∧
      ∃ depth branch, Grown limit after.session.pages depth branch ∧ branch.index = right ∧
        LeastKey last branch.records
  deeper : ∃ depth, before.held.tree.LeavesAt limit before.session.pages depth ∧
    after.held.tree.LeavesAt limit after.session.pages (depth + 1)

/-- What was written came to rest: in the leaf, or with a separator in the first node on the way up
that has room. No page above was overwritten. -/
inductive Settles (found : Descent) (record : Record) (before after : Holding Transaction σ) : Prop
  | inLeaf (fits : ¬found.Overflows before.held.tree.config.maxEntries record)
      (others : IncludesApart (· = found.index) before.session.pages after.session.pages)
      (spared : ∀ step ∈ found.path,
        Untouched before.session.pages after.session.pages step.index)
  | inNode {separator last : Bytes} {below above : List Step} {step : Step} {keys wider : List Bytes}
      {node : Node} (overflows : found.Overflows before.held.tree.config.maxEntries record)
      (separates : found.Separates record separator)
      (path_eq : found.path = below ++ step :: above)
      (lifts : Lifts before.held.tree.config.maxEntries below separator last)
      (roomy : ¬step.Crowded before.held.tree.config.maxEntries last)
      (takes : step.Takes last keys wider)
      (fetched : fetch after.session.pages step.index = some node.toPage)
      (keys_eq : node.keys = .ok wider)
      (others : IncludesApart
        (fun index => index = found.index ∨ ∃ other ∈ below ++ [step], index = other.index)
        before.session.pages after.session.pages)
      (spared : ∀ other ∈ above,
        Untouched before.session.pages after.session.pages other.index)

/-- The root is the same, also on the page of the anchor, and all leaves are as deep as before. -/
structure SameRoot (limit : Nat) (found : Descent) (record : Record)
    (before after : Holding Transaction σ) : Prop where
  root_eq : after.held.tree.anchor.root = before.held.tree.anchor.root
  spared : Untouched before.session.pages after.session.pages before.held.tree.anchorIndex
  level : ∃ depth, before.held.tree.LeavesAt limit before.session.pages depth ∧
    after.held.tree.LeavesAt limit after.session.pages depth
  settles : Settles found record before after

/-- A record was written where a search had ended. The root is a new one just if all pages on the
way were outgrown. -/
structure Reshapes (limit : Nat) (found : Descent) (record : Record)
    (before after : Holding Transaction σ) : Prop where
  storedBefore : fetch before.session.pages before.held.tree.anchorIndex =
    some before.held.tree.anchor.toPage
  storedAfter : fetch after.session.pages before.held.tree.anchorIndex =
    some after.held.tree.anchor.toPage
  root_ne_iff : after.held.tree.anchor.root ≠ before.held.tree.anchor.root ↔
    ∃ last, found.Outgrows before.held.tree.config.maxEntries record last
  newRoot : ∀ last, found.Outgrows before.held.tree.config.maxEntries record last →
    NewRoot limit last before after
  sameRoot : (∀ last, ¬found.Outgrows before.held.tree.config.maxEntries record last) →
    SameRoot limit found record before after

section

variable {base : List Page} {limit : Nat} {outline later : Outline} {contents now : Contents}
  {found : Descent} {record : Record} {before after : Holding Transaction σ}
  {front back : List Sheet} {sheet : Sheet}

section

variable (keeps : Keeps limit before.session.pages before.held.tree outline contents)
  (landing : Landing before.session.pages outline found front sheet back)

include keeps landing

theorem exists_stepPage {step : Step} (member : step ∈ found.path) :
    ∃ node : Node, fetch before.session.pages step.index = some node.toPage := by
  rcases landing.trail.exists_group member with ⟨group, inLevels, index_eq⟩
  rcases keeps.scaffold.stored group inLevels with ⟨node, fetched, _⟩
  rw [index_eq] at fetched
  exact ⟨node, fetched⟩

theorem step_ne_leaf {step : Step} (member : step ∈ found.path) : step.index ≠ found.index := by
  rcases exists_stepPage keeps landing member with ⟨node, fetched⟩
  rw [landing.index_eq]
  exact ne_of_kind fetched node.kind?_toPage landing.fetched (Leaf.kind?_toPage _) (by decide)

theorem anchor_ne_leaf : before.held.tree.anchorIndex ≠ found.index := by
  rw [landing.index_eq]
  exact ne_of_kind keeps.anchored (Anchor.kind?_toPage _) landing.fetched (Leaf.kind?_toPage _)
    (by decide)

theorem anchor_ne_step {step : Step} (member : step ∈ found.path) :
    before.held.tree.anchorIndex ≠ step.index := by
  rcases exists_stepPage keeps landing member with ⟨node, fetched⟩
  exact ne_of_kind keeps.anchored (Anchor.kind?_toPage _) fetched node.kind?_toPage (by decide)

variable (keepsAfter : Keeps limit after.session.pages after.held.tree later now)

include keepsAfter

omit landing in
theorem exists_depth (more : Nat)
    (height_eq : later.levels.length = outline.levels.length + more) :
    ∃ depth, before.held.tree.LeavesAt limit before.session.pages depth ∧
      after.held.tree.LeavesAt limit after.session.pages (depth + more) :=
  ⟨outline.levels.length, keeps.leavesAt, height_eq ▸ keepsAfter.leavesAt⟩

variable (anchorIndex_eq : after.held.tree.anchorIndex = before.held.tree.anchorIndex)

include anchorIndex_eq

omit landing in
/-- Where some page on the way was not outgrown, the root is the same. -/
theorem Reshapes.of_sameRoot
    (stays : ∀ last, ¬found.Outgrows before.held.tree.config.maxEntries record last)
    (same : SameRoot limit found record before after) : Reshapes limit found record before after where
  storedBefore := keeps.anchored
  storedAfter := anchorIndex_eq ▸ keepsAfter.anchored
  root_ne_iff := ⟨fun different => absurd same.root_eq different,
    fun ⟨last, outgrows⟩ => absurd outgrows (stays last)⟩
  newRoot last outgrows := absurd outgrows (stays last)
  sameRoot _ := same

omit landing in
/-- Where all pages on the way were outgrown, the last key is the only one of the new root. -/
theorem Reshapes.of_newRoot {last : Bytes} {right : PageIndex} {node : Node}
    (outgrows : found.Outgrows before.held.tree.config.maxEntries record last)
    (isNew : fetch before.session.pages after.held.tree.anchor.root = none)
    (fetched : fetch after.session.pages after.held.tree.anchor.root = some node.toPage)
    (reads : node.Reads [last] [before.held.tree.anchor.root, right])
    (height_eq : later.levels.length = outline.levels.length + 1) :
    Reshapes limit found record before after where
  storedBefore := keeps.anchored
  storedAfter := anchorIndex_eq ▸ keepsAfter.anchored
  root_ne_iff := by
    refine ⟨fun _ => ⟨last, outgrows⟩, fun _ same => ?_⟩
    rcases keeps.exists_branch with ⟨branch, grown, index_eq, _⟩
    rcases grown.exists_page with ⟨page, rootFetched⟩
    rw [same, ← index_eq, rootFetched] at isNew
    contradiction
  newRoot other otherwise := by
    obtain rfl := outgrows.unique otherwise
    rcases keepsAfter.exists_branch with ⟨branch, grown, index_eq, _⟩
    rw [← index_eq] at fetched
    rcases grown.of_single fetched reads with ⟨depth, sibling, siblingGrown, sibling_eq, least⟩
    rw [index_eq] at fetched
    exact ⟨⟨node, right, fetched, reads, depth, sibling, siblingGrown, sibling_eq, least⟩,
      exists_depth keeps keepsAfter 1 height_eq⟩
  sameRoot stays := absurd outgrows (stays last)

/-- A record that fits into its leaf leaves all other pages as they are. -/
theorem Reshapes.of_fits (fits : ¬found.Overflows before.held.tree.config.maxEntries record)
    (advances : Advances (· = found.index) before after)
    (root_eq : after.held.tree.anchor.root = before.held.tree.anchor.root)
    (height_eq : later.levels.length = outline.levels.length) :
    Reshapes limit found record before after := by
  have others : IncludesApart (· = found.index) before.session.pages after.session.pages :=
    advances.kept
  apply Reshapes.of_sameRoot keeps keepsAfter anchorIndex_eq
  · rintro last ⟨overflows, _⟩
    exact fits overflows
  · refine ⟨root_eq, others.untouched keeps.anchored (anchor_ne_leaf keeps landing),
      exists_depth keeps keepsAfter 0 height_eq, .inLeaf fits others ?_⟩
    intro step member
    rcases exists_stepPage keeps landing member with ⟨node, fetched⟩
    exact others.untouched fetched (step_ne_leaf keeps landing member)

/-- A separator that finds room leaves the nodes above as they are. -/
theorem Reshapes.of_settled {separator last : Bytes} {below above : List Step} {step : Step}
    (overflows : found.Overflows before.held.tree.config.maxEntries record)
    (separates : found.Separates record separator) (path_eq : found.path = below ++ step :: above)
    (lifts : Lifts before.held.tree.config.maxEntries below separator last)
    (roomy : ¬step.Crowded before.held.tree.config.maxEntries last)
    (taken : ∃ keys wider node, step.Takes last keys wider ∧
      fetch after.session.pages step.index = some (Node.toPage node) ∧ node.keys = .ok wider)
    (others : IncludesApart
      (fun index => index = found.index ∨ ∃ other ∈ below ++ [step], index = other.index)
      before.session.pages after.session.pages)
    (root_eq : after.held.tree.anchor.root = before.held.tree.anchor.root)
    (height_eq : later.levels.length = outline.levels.length) :
    Reshapes limit found record before after := by
  rcases taken with ⟨keys, wider, node, takes, fetched, keys_eq⟩
  have lowerOnWay : ∀ other ∈ below ++ [step], other ∈ found.path := by
    intro other member
    rw [path_eq, List.append_cons]
    exact List.mem_append_left _ member
  have upperOnWay : ∀ other ∈ above, other ∈ found.path := by
    intro other member
    rw [path_eq]
    exact List.mem_append_right _ (List.mem_cons_of_mem _ member)
  apply Reshapes.of_sameRoot keeps keepsAfter anchorIndex_eq
  · rintro top ⟨_, otherSeparator, otherwise, all⟩
    rw [separates.unique otherwise, path_eq] at all
    exact roomy (lifts.crowded all)
  · refine ⟨root_eq, others.untouched keeps.anchored ?_, exists_depth keeps keepsAfter 0 height_eq,
      .inNode overflows separates path_eq lifts roomy takes fetched keys_eq others ?_⟩
    · rintro (isLeaf | ⟨other, member, isNode⟩)
      · exact anchor_ne_leaf keeps landing isLeaf
      · exact anchor_ne_step keeps landing (lowerOnWay other member) isNode
    · intro upper member
      rcases exists_stepPage keeps landing (upperOnWay upper member) with ⟨upperNode, there⟩
      apply others.untouched there
      rintro (isLeaf | ⟨other, isLower, same⟩)
      · exact step_ne_leaf keeps landing (upperOnWay upper member) isLeaf
      · have trail := landing.trail
        rw [path_eq] at trail
        exact trail.ne_above keeps.scaffold.distinct member other isLower same

/-- How far writing a record spread is decided by whether the pages on the way were outgrown. -/
theorem Spreads.reshapes
    (spreads : Spreads found record outline.levels later.levels before after) :
    Reshapes limit found record before after := by
  cases spreads with
  | within fits advances root_eq height_eq =>
      exact .of_fits keeps landing keepsAfter anchorIndex_eq fits advances root_eq height_eq
  | @beyond separator middle overflows separates advances tree_eq risen =>
      cases risen with
      | settled path_eq lifts roomy taken touched root_eq height_eq =>
          rw [tree_eq] at lifts roomy root_eq
          exact .of_settled keeps landing keepsAfter anchorIndex_eq overflows separates path_eq lifts
            roomy taken (advances.trans touched).kept root_eq height_eq
      | grown lifts isNew fetched reads height_eq =>
          rw [tree_eq] at lifts reads
          exact .of_newRoot keeps keepsAfter anchorIndex_eq
            ⟨overflows, separator, separates, lifts⟩
            (PageList.fetch_none_of_le advances.longer isNew) fetched reads height_eq

end

/-- Inserting an entry grows the tree as the pages on the way to its leaf decide. -/
theorem Entered.reshapes {key value : Bytes}
    (entered : Entered base limit outline contents key value before after)
    (maintains : Maintains base limit outline contents before) :
    ∃ found encoded middle,
      Readies before.held.tree key value before.session found encoded middle ∧
        Reshapes limit found (key, encoded) before after := by
  rcases entered with ⟨_, found, encoded, middle, later, readies, placed⟩
  refine ⟨found, encoded, middle, readies, ?_⟩
  rcases readies with ⟨reached, search, _⟩
  rcases (maintains.keeps.descend_consults key before.session rfl).of_ok search with
    ⟨⟨front, sheet, back, landing, _, _⟩, _⟩
  exact placed.spreads.reshapes maintains.keeps landing placed.maintains.keeps
    placed.advances.anchorIndex_eq

end

end Transaction

/-! ## Runs -/

/-- In every transaction of a run on a calm pager, inserting an entry changes the root just if the
leaf and all nodes on the way to it are outgrown. Then the new root has one key and two children,
the old root on the left, and all leaves are deeper by one. Otherwise the root and the depth of the
leaves stay, and no page above the first one with room is overwritten. -/
theorem insert_reshapes {σ : Type} [Pager σ] [AtomicPager σ] {index : PageIndex}
    {actions : List Action} {session reached : Session σ} {transaction : Transaction}
    {after : Holding Transaction σ} (calm : session.Calm)
    (creatable : Creatable session.pages index)
    (ran : Client.run index actions .closed session = .ok (.changing transaction) reached)
    (key : Bytes) (value : Addressable)
    (inserts : Transaction.insert key value.val ⟨transaction, reached⟩ = .ok () after) :
    ∃ found encoded middle,
      Transaction.Readies transaction.tree key value.val reached found encoded middle ∧
        Transaction.Reshapes 255 found (key, encoded) ⟨transaction, reached⟩ after := by
  have admitted : ∀ action ∈ actions, action.Admitted 255 :=
    Action.admitted fun config _ => config.maxEntries_le
  have sound : Sound index 255 0 .unopened .closed session := .unopened creatable calm
  have soundReached := ((sound.run_ends (Nat.le_refl _) admitted).of_ok ran).1
  generalize Account.unopened.tally actions = account at soundReached
  cases soundReached with
  | changing changes =>
      rcases changes.maintains with ⟨base, outline, earlier, maintains, _⟩
      by_cases short : key.length ≤ maxKeySize
      · have ends := Transaction.insert_ends maintains changes.active (Nat.le_refl _) changes.roomy
          short value.2
        exact (ends.of_ok inserts).reshapes maintains
      · rw [Transaction.insert_eq_of_long changes.active (Nat.lt_of_not_le short)] at inserts
        contradiction

/-- A tree is made, and six keys are inserted in a transaction. -/
def insertingSix : List Action := insertingBytes fourChildren [1, 2, 3, 4, 5, 6]

/-- In an empty memory the fourth key splits the first leaf and grows a root, and the seventh one
splits a leaf and this root. -/
theorem insert_reshapes_memory :
    ∃ (transaction : Transaction) (reached : Session Memory) (after : Holding Transaction Memory),
      Client.run 0 insertingSix .closed (⟨⟨[]⟩, []⟩ : Session Memory) =
        .ok (.changing transaction) reached ∧
      Transaction.insert [7] [7] ⟨transaction, reached⟩ = .ok () after ∧
      after.held.tree.anchor.root ≠ transaction.tree.anchor.root ∧
      ∃ found encoded middle,
        Transaction.Readies transaction.tree [7] [7] reached found encoded middle ∧
          found.path.length = 1 ∧
          Transaction.Reshapes 255 found ([7], encoded) ⟨transaction, reached⟩ after := by
  have calm : Session.Calm (⟨⟨[]⟩, []⟩ : Session Memory) := trivial
  have runs : Ends (Client.run 0 insertingSix .closed (⟨⟨[]⟩, []⟩ : Session Memory))
      (fun client reached => client.Changing (fun holding =>
        Ends (holding.held.tree.descend [7] holding.session)
            (fun found _ => found.path.length = 1) (fun _ _ => False) ∧
          Transaction.Uproots 7 holding) reached)
      (fun _ _ => False) := by
    decide +kernel
  rcases runs.exists_ok (fun _ _ => id) with ⟨client, reached, ran, changing⟩
  rcases changing.exists_transaction with ⟨transaction, rfl, searches, uproots⟩
  rcases uproots.exists_ok (fun _ _ => id) with ⟨_, after, inserts, different⟩
  rcases insert_reshapes calm (Or.inl rfl) ran [7] ⟨[7], Nat.le_of_ble_eq_true rfl⟩ inserts with
    ⟨found, encoded, middle, readies, reshapes⟩
  have search := readies.choose_spec.1
  exact ⟨transaction, reached, after, ran, inserts, different, found, encoded, middle, readies,
    searches.of_ok search, reshapes⟩

end PagedMap
