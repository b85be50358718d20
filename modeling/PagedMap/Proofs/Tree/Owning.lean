import PagedMap.Proofs.Tree.Aborting
import PagedMap.Proofs.Tree.Runs

/-!
# The pages that a tree owns

A tree owns its anchor page and all that is reached from its root. Somebody else may overwrite any
other page: the tree is kept, and a transaction on it can still be undone. A tree in turn overwrites
only its anchor, its nodes and its leaves, and leaves all else as it is.
-/

namespace PagedMap

open PageList (fetch store nextIndex)
open Transaction (Maintains)

/-- The pages that belong to a tree: its anchor page, and all that is reached from its root. -/
def Tree.Owns (tree : Tree) (pages : List Page) (index : PageIndex) : Prop :=
  index = tree.anchorIndex ∨ ∃ role, Reached pages tree.anchor role index

/-- A page is none of those that a tree overwrites when it is changed. -/
structure Tree.Exempts (tree : Tree) (pages : List Page) (index : PageIndex) : Prop where
  notAnchor : index ≠ tree.anchorIndex
  notChild : ¬ Reached pages tree.anchor .child index

/-! ## The pages of a tree that is kept -/

theorem Belongs.exists_overflow {pages : List Page} {sentinel index : PageIndex} {outline : Outline}
    (belongs : Belongs pages sentinel outline .part index) :
    ∃ overflow : Overflow, fetch pages index = some overflow.toPage := by
  cases belongs with
  | part _ _ spans =>
      rcases spans with ⟨_, _, along⟩
      exact along.exists_fetch

theorem Tree.exempts_of_not_owns {pages : List Page} {tree : Tree} {index : PageIndex}
    (foreign : ¬ tree.Owns pages index) : tree.Exempts pages index :=
  ⟨fun isAnchor => foreign (Or.inl isAnchor), fun reached => foreign (Or.inr ⟨_, reached⟩)⟩

namespace Keeps

variable {limit more : Nat} {pages later : List Page} {tree other : Tree} {outline : Outline}
  {contents now : Contents} {index : PageIndex}

theorem owns_iff (keeps : Keeps limit pages tree outline contents) : tree.Owns pages index ↔
    index = tree.anchorIndex ∨ ∃ role, Belongs pages tree.anchor.sentinel outline role index := by
  constructor
  · exact Or.imp_right fun ⟨role, reached⟩ => ⟨role, keeps.retains.belongs_of_reached reached⟩
  · exact Or.imp_right fun ⟨_, belongs⟩ => keeps.reached belongs

theorem reached_child_iff (keeps : Keeps limit pages tree outline contents) :
    Reached pages tree.anchor .child index ↔
      Belongs pages tree.anchor.sentinel outline .child index :=
  ⟨keeps.retains.belongs_of_reached, keeps.reached_child⟩

/-- A page of another kind than nodes and leaves is none of the pages where a search passes. -/
theorem child_ne {other : PageIndex} {page : Page} {kind : Kind}
    (keeps : Keeps limit pages tree outline contents)
    (belongs : Belongs pages tree.anchor.sentinel outline .child index)
    (fetched : fetch pages other = some page) (isKind : page.kind? = some kind)
    (notNode : kind ≠ .node) (notLeaf : kind ≠ .leaf) : other ≠ index := by
  cases belongs with
  | node member =>
      rcases keeps.scaffold.stored _ member with ⟨node, nodeFetched, _⟩
      exact ne_of_kind fetched isKind nodeFetched node.kind?_toPage notNode
  | leaf member =>
      rcases keeps.shelf.stored _ member with ⟨leaf, leafFetched, _⟩
      exact ne_of_kind fetched isKind leafFetched leaf.kind?_toPage notLeaf

theorem exempts_same (keeps : Keeps limit pages tree outline contents)
    (keepsLater : Keeps more later other outline now)
    (anchorIndex_eq : other.anchorIndex = tree.anchorIndex) (exempts : tree.Exempts pages index) :
    other.Exempts later index := by
  refine ⟨anchorIndex_eq ▸ exempts.notAnchor, fun reached => exempts.notChild ?_⟩
  rw [keeps.reached_child_iff]
  cases keepsLater.reached_child_iff.mp reached with
  | node member => exact .node member
  | leaf member => exact .leaf member

theorem exempts_missing (keeps : Keeps limit pages tree outline contents)
    (missing : fetch pages index = none) : tree.Exempts pages index := by
  constructor
  · exact (PageList.ne_of_fetch keeps.anchored missing).symm
  · intro reached
    rcases keeps.retains.connected _ _ reached with ⟨page, _, fetched, _⟩
    rw [missing] at fetched
    contradiction

theorem exempts_part (keeps : Keeps limit pages tree outline contents)
    (belongs : Belongs pages tree.anchor.sentinel outline .part index) :
    tree.Exempts pages index := by
  rcases belongs.exists_overflow with ⟨overflow, isOverflow⟩
  constructor
  · exact ne_of_kind isOverflow overflow.kind?_toPage keeps.anchored tree.anchor.kind?_toPage
      (by decide)
  · intro reached
    exact keeps.child_ne (keeps.reached_child_iff.mp reached) isOverflow overflow.kind?_toPage
      (by decide) (by decide) rfl

/-- The sentinel is never overwritten: it is an empty leaf that no node leads to. -/
theorem exempts_sentinel (keeps : Keeps limit pages tree outline contents) :
    tree.Exempts pages tree.anchor.sentinel := by
  constructor
  · exact ne_of_kind keeps.ended (Leaf.kind?_toPage _) keeps.anchored tree.anchor.kind?_toPage
      (by decide)
  · intro reached
    generalize same : tree.anchor.sentinel = index at reached
    cases keeps.reached_child_iff.mp reached with
    | @node group member =>
        rcases keeps.scaffold.stored group member with ⟨node, fetched, _⟩
        exact ne_of_kind fetched node.kind?_toPage keeps.ended (Leaf.kind?_toPage _) (by decide)
          same.symm
    | leaf member =>
        have distinct := (List.nodup_cons.mp keeps.shelf.distinct).1
        exact distinct (same ▸ List.mem_map_of_mem member)

/-- What a tree does not own may be overwritten, and the tree is kept. -/
theorem keep_store {old : Page} (keeps : Keeps limit pages tree outline contents)
    (present : fetch pages index = some old) (foreign : ¬ tree.Owns pages index) (page : Page) :
    Keeps limit (store pages index page) tree outline contents := by
  rw [keeps.owns_iff] at foreign
  apply keeps.keep_own
  · rw [PageList.fetch_store_of_ne present fun same => foreign (Or.inl same)]
    exact keeps.anchored
  · intro role other otherPage belongs fetched
    rw [PageList.fetch_store_of_ne present]
    · exact fetched
    · rintro rfl
      exact foreign (Or.inr ⟨_, belongs⟩)

/-- Overwriting what a tree does not own brings no page into it. -/
theorem belongs_of_store {old page : Page} {role : Role} {target : PageIndex}
    (keeps : Keeps limit pages tree outline contents) (present : fetch pages index = some old)
    (foreign : ¬ tree.Owns pages index)
    (belongs : Belongs (store pages index page) tree.anchor.sentinel outline role target) :
    Belongs pages tree.anchor.sentinel outline role target := by
  rw [keeps.owns_iff] at foreign
  apply belongs.of_kept keeps.means
  intro part partPage placed fetched
  rw [PageList.fetch_store_of_ne present]
  · exact fetched
  · rintro rfl
    exact foreign (Or.inr ⟨_, placed⟩)

end Keeps

/-- A tree that was just made owns no page from before. -/
theorem Fresh.not_owns {base pages : List Page} {tree : Tree} {target : PageIndex} {page : Page}
    (fresh : Fresh base tree pages) (present : fetch base target = some page)
    (different : target ≠ tree.anchorIndex) : ¬ tree.Owns pages target := by
  have keeps : Keeps 255 pages tree (Outline.empty tree.anchor) .empty := fresh.keeps
  rw [keeps.owns_iff]
  rintro (isAnchor | ⟨role, belongs⟩)
  · exact different isAnchor
  · have notRoot := PageList.ne_of_fetch present fresh.root_new
    have notSentinel := PageList.ne_of_fetch present fresh.sentinel_new
    cases belongs with
    | node member => contradiction
    | leaf member => exact notRoot (congrArg Sheet.index (List.mem_singleton.mp member))
    | next member => exact notRoot (congrArg Sheet.index (List.mem_singleton.mp member))
    | sentinel => exact notSentinel rfl
    | part inSheets member spans =>
        rw [List.mem_singleton.mp inSheets] at member
        contradiction

/-! ## What there is to be undone -/

/-- What undoing brings back when another page has been stored in the place of one from before: that
page, unless the one from before was copied. -/
def disturbed (base : List Page) (transaction : Transaction) (index : PageIndex) (page : Page) :
    List Page :=
  if transaction.shadows.covers index = true then base else store base index page

theorem length_disturbed {base : List Page} {transaction : Transaction} {index : PageIndex}
    {page : Page} : (disturbed base transaction index page).length = base.length := by
  simp only [disturbed]
  split
  · rfl
  · exact PageList.length_store

theorem fetch_disturbed {base : List Page} {transaction : Transaction} {index other : PageIndex}
    {page : Page} (nonnegative : 0 ≤ index.toInt) (different : index ≠ other) :
    fetch (disturbed base transaction index page) other = fetch base other := by
  simp only [disturbed]
  split
  · rfl
  · exact PageList.fetch_store_elsewhere nonnegative different

/-- Any page that is no copy may be overwritten by somebody else. -/
theorem Undoable.disturb {base pages : List Page} {transaction : Transaction} {index : PageIndex}
    {old : Page} (undoable : Undoable base transaction pages)
    (present : fetch pages index = some old)
    (notCopy : ∀ shadow ∈ transaction.shadows, shadow.copy ≠ index) (page : Page) :
    Undoable (disturbed base transaction index page) transaction (store pages index page) := by
  have nonnegative := (PageList.fetch_eq_some.mp present).1
  have missing : ∀ {other}, fetch base other = none →
      fetch (disturbed base transaction index page) other = none := by
    intro other
    exact PageList.fetch_none_of_le (Nat.le_of_eq length_disturbed)
  refine { undoable with
    room := by rw [length_disturbed]; exact undoable.room
    fresh := by rw [undoable.fresh, nextIndex, nextIndex, length_disturbed]
    longer := by rw [length_disturbed, PageList.length_store]; exact undoable.longer
    kept := ?_
    copied := ?_
    beyond := fun shadow member => missing (undoable.beyond shadow member) }
  · -- A page without a copy is overwritten among the pages from before as well.
    intro other otherPage fetched uncovered
    by_cases same : index = other
    · subst same
      rw [disturbed, if_neg (by simp [uncovered])] at fetched
      rw [PageList.fetch_store_same present]
      cases inBase : fetch base index with
      | none =>
          rw [PageList.fetch_none_of_le (Nat.le_of_eq PageList.length_store) inBase] at fetched
          contradiction
      | some original =>
          rw [PageList.fetch_store_same inBase] at fetched
          exact fetched
    · rw [fetch_disturbed nonnegative same] at fetched
      rw [PageList.fetch_store_of_ne present same]
      exact undoable.kept other otherPage fetched uncovered
  · intro shadow member
    rcases undoable.copied shadow member with ⟨original, inBase, copied⟩
    refine ⟨original, ?_, ?_⟩
    · by_cases same : index = shadow.page
      · rw [disturbed, if_pos (Shadows.covers_iff.mpr ⟨shadow, member, same.symm⟩)]
        exact inBase
      · rw [fetch_disturbed nonnegative same]
        exact inBase
    · rw [PageList.fetch_store_of_ne present (notCopy shadow member).symm]
      exact copied

/-! ## Transactions beside other pages -/

namespace Transaction

variable {σ : Type} [Pager σ] [AtomicPager σ] {limit : Nat} {index target : PageIndex}
  {began base : List Page} {earlier outline : Outline} {before now contents : Contents}
  {holding after : Holding Transaction σ} {page : Page}

/-- What a change may overwrite is not exempt. -/
theorem Maintains.unexposed (maintains : Maintains base limit outline now holding)
    (exempts : holding.held.tree.Exempts holding.session.pages target) :
    ¬ outline.Exposes holding.held.tree.anchorIndex target := by
  have keeps := maintains.keeps
  rintro (isAnchor | ⟨group, member, rfl⟩ | ⟨sheet, member, rfl⟩)
  · exact exempts.notAnchor isAnchor
  · exact exempts.notChild (keeps.reached_child (.node member))
  · exact exempts.notChild (keeps.reached_child (.leaf member))

/-- A page that is there and that the tree exempts does not become a part of it. -/
theorem Continues.exempts (maintains : Maintains base limit outline now holding)
    (continues : Continues base limit outline contents holding after)
    (present : fetch holding.session.pages target = some page)
    (exempts : holding.held.tree.Exempts holding.session.pages target) :
    after.held.tree.Exempts after.session.pages target := by
  rcases continues.maintains with ⟨later, maintainsAfter, inherits⟩
  refine ⟨continues.advances.anchorIndex_eq ▸ exempts.notAnchor, fun reached => ?_⟩
  rcases inherits _ _ (maintainsAfter.keeps.reached_child_iff.mp reached) with belongs | missing
  · exact exempts.notChild (maintains.keeps.reached_child belongs)
  · exact PageList.ne_of_fetch present missing rfl

/-- A transaction is under way beside pages of others. Undoing it brings back the pages from when it
began, though others may have overwritten those that the tree did not own. -/
structure Secured (index : PageIndex) (began base : List Page) (earlier outline : Outline)
    (before now : Contents) (holding : Holding Transaction σ) : Prop where
  maintains : Maintains base 255 outline now holding
  keptBefore : Keeps 255 began holding.held.treeBefore earlier before
  intact : ∀ target page, holding.held.treeBefore.Owns began target →
    fetch began target = some page → fetch base target = some page
  length_eq : base.length = began.length
  inherits : ∀ role target,
    Belongs holding.session.pages holding.held.tree.anchor.sentinel outline role target →
      Belongs began holding.held.treeBefore.anchor.sentinel earlier role target ∨
        fetch began target = none
  steady : ∀ target page,
    Belongs began holding.held.treeBefore.anchor.sentinel earlier .part target →
      fetch began target = some page → fetch holding.session.pages target = some page
  active : holding.held.phase = .active
  anchorIndex_eq : holding.held.tree.anchorIndex = index
  sequence_eq : holding.held.tree.anchor.sequence = holding.held.treeBefore.anchor.sequence
  sentinel_eq : holding.held.tree.anchor.sentinel = holding.held.treeBefore.anchor.sentinel
  calm : holding.session.Calm

/-- A page stays as it is whatever happens to a transaction, unless others overwrite it. -/
structure Endures (began base : List Page) (target : PageIndex) (page : Page)
    (holding : Holding Transaction σ) : Prop where
  now : holding.held.tree.Exempts holding.session.pages target
  before : holding.held.treeBefore.Exempts began target
  present : fetch holding.session.pages target = some page
  agrees : ∀ other, fetch base target = some other → other = page

namespace Secured

theorem keepsBase (secured : Secured index began base earlier outline before now holding) :
    Keeps 255 base holding.held.treeBefore earlier before := by
  apply secured.keptBefore.keep_own
  · exact secured.intact _ _ (Or.inl rfl) secured.keptBefore.anchored
  · intro role target page belongs
    exact secured.intact target page (secured.keptBefore.owns_iff.mpr (Or.inr ⟨role, belongs⟩))

theorem changes (secured : Secured index began base earlier outline before now holding) :
    Changes index 255 holding.held.tree.anchor.sequence.toNat before now holding where
  maintains := ⟨base, outline, earlier, secured.maintains, secured.keepsBase⟩
  active := secured.active
  anchorIndex_eq := secured.anchorIndex_eq
  roomy := holding.held.tree.config.maxEntries_le
  counted := Nat.le_refl _
  countedBefore := Nat.le_of_eq (congrArg UInt64.toNat secured.sequence_eq.symm)
  calm := secured.calm

theorem stands (secured : Secured index began base earlier outline before now holding) :
    Stands base holding.held.treeBefore holding :=
  ⟨⟨outline, now, secured.maintains⟩, secured.active, rfl, secured.sequence_eq⟩

theorem missing_of_base (secured : Secured index began base earlier outline before now holding)
    (missing : fetch holding.session.pages target = none) : fetch began target = none := by
  have longer := secured.maintains.undoable.longer
  rw [secured.length_eq] at longer
  exact PageList.fetch_none_of_le longer missing

/-- What belongs to the tree of a transaction and was there when it began belonged to it then. -/
theorem owned_before (secured : Secured index began base earlier outline before now holding)
    (owned : holding.held.tree.Owns holding.session.pages target)
    (present : fetch began target = some page) : holding.held.treeBefore.Owns began target := by
  rcases secured.maintains.keeps.owns_iff.mp owned with isAnchor | ⟨role, belongs⟩
  · exact Or.inl isAnchor
  · rcases secured.inherits role target belongs with belongsBefore | missing
    · exact secured.keptBefore.owns_iff.mpr (Or.inr ⟨role, belongsBefore⟩)
    · exact absurd rfl (PageList.ne_of_fetch present missing)

/-- No copy takes the place of a page that was there when the transaction began. -/
theorem copy_ne (secured : Secured index began base earlier outline before now holding)
    (present : fetch began target = some page) {shadow : Shadow}
    (member : shadow ∈ holding.held.shadows) : shadow.copy ≠ target := by
  have missing := PageList.fetch_none_of_le (Nat.le_of_eq secured.length_eq.symm)
    (secured.maintains.undoable.beyond shadow member)
  exact (PageList.ne_of_fetch present missing).symm

theorem owned_of_exposes (secured : Secured index began base earlier outline before now holding)
    (exposes : outline.Exposes holding.held.tree.anchorIndex target)
    (present : fetch began target = some page) : holding.held.treeBefore.Owns began target := by
  apply secured.owned_before _ present
  apply secured.maintains.keeps.owns_iff.mpr
  rcases exposes with isAnchor | ⟨group, member, rfl⟩ | ⟨sheet, member, rfl⟩
  · exact Or.inl isAnchor
  · exact Or.inr ⟨_, .node member⟩
  · exact Or.inr ⟨_, .leaf member⟩

/-- A page that was copied was there when the transaction began. -/
theorem exists_copied (secured : Secured index began base earlier outline before now holding)
    {shadow : Shadow} (member : shadow ∈ holding.held.shadows) :
    ∃ page, fetch began shadow.page = some page := by
  rcases secured.maintains.undoable.copied shadow member with ⟨page, inBase, _⟩
  cases inBegan : fetch began shadow.page with
  | some other => exact ⟨other, rfl⟩
  | none =>
      have missing := PageList.fetch_none_of_le (Nat.le_of_eq secured.length_eq) inBegan
      exact absurd rfl (PageList.ne_of_fetch inBase missing)

/-- What was there when the transaction began and was exempt is so still. -/
theorem exempts_still (secured : Secured index began base earlier outline before now holding)
    (present : fetch began target = some page)
    (exempts : holding.held.treeBefore.Exempts began target) :
    holding.held.tree.Exempts holding.session.pages target := by
  refine ⟨exempts.notAnchor, fun reached => ?_⟩
  rcases secured.inherits _ _ (secured.maintains.keeps.reached_child_iff.mp reached) with
    belongs | missing
  · exact exempts.notChild (secured.keptBefore.reached_child belongs)
  · exact PageList.ne_of_fetch present missing rfl

/-- A transaction that goes on goes on beside the pages of others. -/
theorem goesOn (secured : Secured index began base earlier outline before now holding)
    (continues : Continues base 255 outline contents holding after) :
    ∃ later, Secured index began base earlier later before contents after := by
  rcases continues with ⟨⟨later, maintains, inherits⟩, advances, sentinel_eq, sequence_eq⟩
  have treeBefore_eq := advances.treeBefore_eq
  refine ⟨later, maintains, ?_, ?_, secured.length_eq, ?_, ?_,
    advances.phase_eq.trans secured.active, advances.anchorIndex_eq.trans secured.anchorIndex_eq,
    ?_, ?_, advances.calm secured.calm⟩
  · rw [treeBefore_eq]
    exact secured.keptBefore
  · rw [treeBefore_eq]
    exact secured.intact
  · intro role target belongs
    rw [treeBefore_eq]
    rcases inherits role target belongs with earlier | missing
    · exact secured.inherits role target earlier
    · exact Or.inr (secured.missing_of_base missing)
  · intro target page placed fetched
    rw [treeBefore_eq] at placed
    have exempts := secured.exempts_still fetched (secured.keptBefore.exempts_part placed)
    exact advances.kept target page (secured.maintains.unexposed exempts)
      (secured.steady target page placed fetched)
  · rw [sequence_eq, treeBefore_eq]
    exact secured.sequence_eq
  · rw [sentinel_eq, treeBefore_eq]
    exact secured.sentinel_eq

theorem goesOn_endures (secured : Secured index began base earlier outline before now holding)
    (continues : Continues base 255 outline contents holding after)
    (endures : Endures began base target page holding) : Endures began base target page after where
  now := continues.exempts secured.maintains endures.present endures.now
  before := by
    rw [continues.advances.treeBefore_eq]
    exact endures.before
  present := continues.advances.kept target page (secured.maintains.unexposed endures.now)
    endures.present
  agrees := endures.agrees

section Disturb

variable {old : Page} {session : Session σ}

/-- Others may overwrite what a transaction does not own, now or when it began. -/
theorem disturb (secured : Secured index began base earlier outline before now holding)
    (present : fetch holding.session.pages target = some old)
    (foreign : ¬ holding.held.tree.Owns holding.session.pages target)
    (foreignBefore : ¬ holding.held.treeBefore.Owns began target)
    (notCopy : ∀ shadow ∈ holding.held.shadows, shadow.copy ≠ target)
    (stored : session.pages = store holding.session.pages target page)
    (calm : holding.session.Calm → session.Calm) :
    Secured index began (disturbed base holding.held target page) earlier outline before now
      { holding with session } := by
  have keeps := secured.maintains.keeps
  have nonnegative := (PageList.fetch_eq_some.mp present).1
  have belongsBefore : ∀ {role other}, Belongs session.pages holding.held.tree.anchor.sentinel
      outline role other → Belongs holding.session.pages holding.held.tree.anchor.sentinel outline
        role other := by
    intro role other belongs
    rw [stored] at belongs
    exact keeps.belongs_of_store present foreign belongs
  refine ⟨⟨?_, ?_, secured.maintains.anchorOwn, ?_⟩, secured.keptBefore, ?_, ?_, ?_, ?_,
    secured.active, secured.anchorIndex_eq, secured.sequence_eq, secured.sentinel_eq,
    calm secured.calm⟩
  · change Undoable _ holding.held session.pages
    rw [stored]
    exact secured.maintains.undoable.disturb present notCopy page
  · change Keeps _ session.pages _ _ _
    rw [stored]
    exact keeps.keep_store present foreign page
  · exact fun role other belongs => secured.maintains.own role other (belongsBefore belongs)
  · intro other otherPage owned fetched
    rw [fetch_disturbed nonnegative fun same => foreignBefore (same ▸ owned)]
    exact secured.intact other otherPage owned fetched
  · rw [length_disturbed]
    exact secured.length_eq
  · exact fun role other belongs => secured.inherits role other (belongsBefore belongs)
  · intro other otherPage placed fetched
    have owned := secured.keptBefore.owns_iff.mpr (Or.inr ⟨_, placed⟩)
    change fetch session.pages other = _
    rw [stored, PageList.fetch_store_of_ne present fun same => foreignBefore (same ▸ owned)]
    exact secured.steady other otherPage placed fetched

/-- A page that endures endures also what others overwrite elsewhere. -/
theorem disturb_endures {other : PageIndex} {otherPage : Page}
    (secured : Secured index began base earlier outline before now holding)
    (present : fetch holding.session.pages target = some old)
    (foreign : ¬ holding.held.tree.Owns holding.session.pages target)
    (stored : session.pages = store holding.session.pages target page) (different : target ≠ other)
    (endures : Endures began base other otherPage holding) :
    Endures began (disturbed base holding.held target page) other otherPage
      { holding with session } where
  now := by
    have keepsAfter := secured.maintains.keeps.keep_store present foreign page
    rw [← stored] at keepsAfter
    exact secured.maintains.keeps.exempts_same keepsAfter rfl endures.now
  before := endures.before
  present := by
    change fetch session.pages other = _
    rw [stored, PageList.fetch_store_of_ne present different]
    exact endures.present
  agrees := by
    rw [fetch_disturbed (PageList.fetch_eq_some.mp present).1 different]
    exact endures.agrees

end Disturb

/-! ## How a transaction begins and ends -/

/-- When a transaction begins, what it would bring back are the pages as they are. -/
theorem of_start {tree : Tree} {session opened : Session σ} {contents : Contents}
    (keeps : Keeps 255 session.pages tree outline contents)
    (anchorIndex_eq : tree.anchorIndex = index)
    (calm : session.Calm) (still : session.Still opened)
    (room : session.pages.length < Word.signedLimit) :
    Secured index session.pages session.pages outline outline contents contents
      ⟨atStart tree session.pages, opened⟩ where
  maintains := (Maintains.of_keeps keeps room).of_still still
  keptBefore := keeps
  intact _ _ _ := id
  length_eq := rfl
  inherits role target belongs := by
    change Belongs opened.pages _ _ _ _ at belongs
    rw [still.pages_eq] at belongs
    exact Or.inl belongs
  steady target page _ fetched := by
    change fetch opened.pages target = _
    rw [still.pages_eq]
    exact fetched
  active := rfl
  anchorIndex_eq := anchorIndex_eq
  sequence_eq := rfl
  sentinel_eq := rfl
  calm := still.calm calm

/-- A page that is none of those that a search passes endures from the beginning of a transaction
on. -/
theorem endures_start {tree : Tree} {session opened : Session σ}
    (exempts : tree.Exempts session.pages target) (present : fetch session.pages target = some page)
    (still : session.Still opened) :
    Endures session.pages session.pages target page ⟨atStart tree session.pages, opened⟩ := by
  refine ⟨?_, exempts, ?_, ?_⟩
  · change tree.Exempts opened.pages target
    rw [still.pages_eq]
    exact exempts
  · change fetch opened.pages target = _
    rw [still.pages_eq]
    exact present
  · intro other fetched
    rw [present] at fetched
    injection fetched with same
    exact same.symm

theorem endures_committed (secured : Secured index began base earlier outline before now holding)
    (committed : Committed 255 outline now holding after)
    (endures : Endures began base target page holding) :
    after.held.tree.Exempts after.session.pages target ∧
      fetch after.session.pages target = some page :=
  ⟨secured.maintains.keeps.exempts_same committed.keeps committed.anchorIndex_eq endures.now,
    committed.others target page endures.now.notAnchor endures.present⟩

/-- A page that endures is not lost when the transaction is given up: it was not copied, or its copy
is the same. -/
theorem endures_aborted (secured : Secured index began base earlier outline before now holding)
    (aborted : Aborted base holding after) (endures : Endures began base target page holding) :
    after.held.tree.Exempts after.session.pages target ∧
      fetch after.session.pages target = some page := by
  have undoable := secured.maintains.undoable
  have includes := aborted.includes (Undoable.copiesBack undoable secured.calm)
  have tree_eq : after.held.tree = holding.held.treeBefore := by
    rw [aborted.held_eq]
    rfl
  refine ⟨?_, ?_⟩
  · rw [tree_eq]
    exact secured.keptBefore.exempts_same (secured.keepsBase.keep includes) rfl endures.before
  · cases inBase : fetch base target with
    | some other =>
        rw [← endures.agrees other inBase]
        exact includes target other inBase
    | none =>
        apply aborted.uncovered target page endures.present
        apply Bool.eq_false_iff.mpr
        intro covered
        rcases Shadows.covers_iff.mp covered with ⟨shadow, member, rfl⟩
        rcases undoable.copied shadow member with ⟨original, original_eq, _⟩
        exact PageList.ne_of_fetch original_eq inBase rfl

/-! ## What endures -/

theorem endures_missing (secured : Secured index began base earlier outline before now holding)
    (now : holding.held.tree.Exempts holding.session.pages target)
    (present : fetch holding.session.pages target = some page)
    (missing : fetch base target = none) : Endures began base target page holding := by
  refine ⟨now, secured.keptBefore.exempts_missing ?_, present, ?_⟩
  · exact PageList.fetch_none_of_le (Nat.le_of_eq secured.length_eq.symm) missing
  · intro other fetched
    rw [missing] at fetched
    contradiction

/-- The sentinel is no page that a transaction touches, before or after. -/
theorem endures_sentinel (secured : Secured index began base earlier outline before now holding)
    (present : fetch holding.session.pages holding.held.tree.anchor.sentinel = some page) :
    Endures began base holding.held.tree.anchor.sentinel page holding := by
  have keeps := secured.maintains.keeps
  refine ⟨keeps.exempts_sentinel, ?_, present, ?_⟩
  · rw [secured.sentinel_eq]
    exact secured.keptBefore.exempts_sentinel
  · intro other fetched
    rw [secured.sentinel_eq, secured.keepsBase.ended] at fetched
    rw [keeps.ended] at present
    rw [← Option.some_inj, ← fetched, present]

/-- The parts of values from before a transaction are neither overwritten by it nor changed by
others. -/
theorem endures_partBefore (secured : Secured index began base earlier outline before now holding)
    (belongs : Belongs began holding.held.treeBefore.anchor.sentinel earlier .part target)
    (present : fetch holding.session.pages target = some page) :
    Endures began base target page holding := by
  rcases secured.keptBefore.retains.exists_fetch belongs with ⟨original, inBegan⟩
  have exempts := secured.keptBefore.exempts_part belongs
  refine ⟨secured.exempts_still inBegan exempts, exempts, present, ?_⟩
  intro other fetched
  have inBase := secured.intact target original
    (secured.keptBefore.owns_iff.mpr (Or.inr ⟨_, belongs⟩)) inBegan
  have inPages := secured.steady target original belongs inBegan
  rw [inBase] at fetched
  rw [inPages] at present
  rw [← Option.some_inj, ← fetched, present]

theorem endures_part (secured : Secured index began base earlier outline before now holding)
    (belongs : Belongs holding.session.pages holding.held.tree.anchor.sentinel outline .part target)
    (present : fetch holding.session.pages target = some page) :
    Endures began base target page holding := by
  rcases secured.inherits _ _ belongs with belongsBefore | missing
  · exact secured.endures_partBefore belongsBefore present
  · apply secured.endures_missing (secured.maintains.keeps.exempts_part belongs) present
    exact PageList.fetch_none_of_le (Nat.le_of_eq secured.length_eq) missing

theorem endures_copy (secured : Secured index began base earlier outline before now holding)
    {shadow : Shadow} (member : shadow ∈ holding.held.shadows)
    (present : fetch holding.session.pages shadow.copy = some page) :
    Endures began base shadow.copy page holding := by
  refine secured.endures_missing ⟨?_, ?_⟩ present (secured.maintains.undoable.beyond shadow member)
  · exact secured.maintains.anchorOwn shadow member
  · intro reached
    have belongs := secured.maintains.keeps.reached_child_iff.mp reached
    exact secured.maintains.own _ _ belongs shadow member rfl

/-- A page that is not owned endures, unless a copy was made of it and others changed it then. -/
theorem endures_foreign (secured : Secured index began base earlier outline before now holding)
    (foreign : ¬ holding.held.tree.Owns holding.session.pages target)
    (foreignBefore : ¬ holding.held.treeBefore.Owns began target)
    (agrees : ∀ shadow ∈ holding.held.shadows, shadow.page = target →
      fetch holding.session.pages shadow.copy = fetch holding.session.pages target)
    (present : fetch holding.session.pages target = some page) :
    Endures began base target page holding := by
  refine ⟨Tree.exempts_of_not_owns foreign, Tree.exempts_of_not_owns foreignBefore, present, ?_⟩
  intro other fetched
  have undoable := secured.maintains.undoable
  have inPages : fetch holding.session.pages target = some other := by
    cases covered : holding.held.shadows.covers target with
    | false => exact undoable.kept target other fetched covered
    | true =>
        rcases Shadows.covers_iff.mp covered with ⟨shadow, member, rfl⟩
        rcases undoable.copied shadow member with ⟨original, original_eq, copied⟩
        rw [← agrees shadow member rfl, copied, ← original_eq, fetched]
  rw [inPages] at present
  injection present

end Secured

end Transaction

end PagedMap
