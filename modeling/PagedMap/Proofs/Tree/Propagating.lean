import PagedMap.Proofs.Tree.Layers
import PagedMap.Proofs.Tree.Rising
import PagedMap.Proofs.Tree.Shadowing

/-!
# Nodes learn of a new page

When a page was split, the nodes above it get the new page as a further child. The proof goes up the
way that the search came down: on every level the row of pages is cut behind the page that was
split, and the new page is put there. A node without room is split itself, and the level above gets
the new node. If the way ends at the root, a new root grows over both pages. If the pager fails on
the way, the levels above lag behind, but they still lead to the row of pages.

No page changes above the first node that has room.
-/

namespace PagedMap

open PageList (fetch)
open HoldingM (within)

/-- The node of a step was split when it got a further child: it shares its children with a node on
a page that is new. -/
def Step.Splits (before after : List Page) (step : Step) : Prop :=
  ∃ (left right : Node) (sibling added : PageIndex) (near far lower upper : List PageIndex),
    fetch before sibling = none ∧ fetch after step.index = some left.toPage ∧
      fetch after sibling = some right.toPage ∧ step.node.children = .ok (near ++ far) ∧
      left.children = .ok lower ∧ right.children = .ok upper ∧
      near ++ added :: far = lower ++ upper

/-- The pages that change on a way up: the nodes up to the first one that is not split, the lowest
first, and the page of the anchor if all are split. -/
def Climbs (before after : List Page) (anchorIndex : PageIndex) : List Step → PageIndex → Prop
  | [], index => index = anchorIndex
  | step :: above, index =>
    index = step.index ∨ step.Splits before after ∧ Climbs before after anchorIndex above index

theorem Step.Splits.of_longer {before middle after : List Page} {step : Step}
    (splits : step.Splits middle after) (longer : before.length ≤ middle.length) :
    step.Splits before after := by
  rcases splits with ⟨left, right, sibling, added, near, far, lower, upper, missing, others⟩
  exact ⟨left, right, sibling, added, near, far, lower, upper,
    PageList.fetch_none_of_le longer missing, others⟩

theorem Climbs.of_longer {before middle after : List Page} {anchorIndex index : PageIndex}
    {path : List Step} (climbs : Climbs middle after anchorIndex path index)
    (longer : before.length ≤ middle.length) : Climbs before after anchorIndex path index := by
  induction path with
  | nil => exact climbs
  | cons step above ih =>
      rcases climbs with here | ⟨splits, further⟩
      · exact Or.inl here
      · exact Or.inr ⟨splits.of_longer longer, ih further⟩

namespace Transaction

-- The body of a new root is concrete, and would be evaluated wherever one grows.
attribute [local irreducible] Node.pair

variable {σ : Type} [Pager σ] [AtomicPager σ] {base : List Page} {limit : Nat}
  {holding before middle after : Holding Transaction σ} {failure : Failure TreeError}

/-! ## Reports and anchors -/

/-- What a holding is after a report. -/
def reported (event : Event) (holding : Holding Transaction σ) : Holding Transaction σ :=
  { holding with session := { holding.session with log := holding.session.log ++ [event] } }

omit [Pager σ] [AtomicPager σ] in
theorem report_bind {α : Type} (event : Event) (next : Unit → TransactionM σ α)
    (holding : Holding Transaction σ) :
    (within (SessionM.report event) >>= next) holding = next () (reported event holding) :=
  rfl

/-- The transaction with another anchor in memory. -/
def anchoredAt (anchor : Anchor) (holding : Holding Transaction σ) : Holding Transaction σ :=
  { holding with held := { holding.held with tree := { holding.held.tree with anchor } } }

omit [Pager σ] [AtomicPager σ] in
theorem setAnchor_bind {α : Type} (anchor : Anchor) (next : Unit → TransactionM σ α)
    (holding : Holding Transaction σ) :
    (setAnchor anchor >>= next) holding = next () (anchoredAt anchor holding) :=
  rfl

theorem Advances.of_anchoredAt {touched : PageIndex → Prop} {anchor : Anchor}
    (advances : Advances touched (anchoredAt anchor holding) after) :
    Advances touched holding after :=
  { advances with }

/-- The anchor page may be overwritten if it has been copied or is new. -/
theorem writeAnchor_ends (undoable : Undoable base holding.held holding.session.pages)
    {old : Page} (fetched : fetch holding.session.pages holding.held.tree.anchorIndex = some old)
    (notCopy : ∀ shadow ∈ holding.held.shadows, shadow.copy ≠ holding.held.tree.anchorIndex)
    (safe : fetch base holding.held.tree.anchorIndex = none ∨
      holding.held.shadows.covers holding.held.tree.anchorIndex = true) (anchor : Anchor) :
    Ends (writeAnchor (anchoredAt anchor holding))
      (fun _ after => Advances (· = holding.held.tree.anchorIndex) holding after ∧
        Undoable base after.held after.session.pages ∧
        after.held.tree = { holding.held.tree with anchor } ∧
        fetch after.session.pages holding.held.tree.anchorIndex = some anchor.toPage ∧
        Adds (fun _ => False) holding after)
      (Halted base (anchoredAt anchor holding)) := by
  have undoableThen : Undoable base (anchoredAt anchor holding).held
      (anchoredAt anchor holding).session.pages := undoable.of_shadows rfl rfl
  simp only [writeAnchor]
  rw [HoldingM.held_bind]
  apply Ends.mono (write_ends undoableThen fetched notCopy safe anchor.toPage)
  · rintro _ after ⟨advances, undoableAfter, held_eq, written, copies⟩
    exact ⟨advances.of_anchoredAt, undoableAfter, congrArg Transaction.tree held_eq, written,
      copies⟩
  · intro failure after fails
    exact fails

theorem Halted.of_anchoredAt {anchor : Anchor}
    (fails : Halted base (anchoredAt anchor holding) failure after) :
    Broken base holding failure after :=
  ⟨fails.byPager, fails.advances.of_anchoredAt, fails.undoable, fails.full⟩

/-! ## A page gets a new one at its side -/

/-- A page was appended, and then another one was overwritten, which may link to it. -/
structure Flanked (base : List Page) (index : PageIndex) (page : PageIndex → Page) (added : Page)
    (fresh : PageIndex) (before after : Holding Transaction σ) : Prop where
  missing : fetch before.session.pages fresh = none
  own : ∀ shadow ∈ after.held.shadows, shadow.copy ≠ fresh
  appended : fetch after.session.pages fresh = some added
  written : fetch after.session.pages index = some (page fresh)
  advances : Advances (· = index) before after
  undoable : Undoable base after.held after.session.pages
  tree_eq : after.held.tree = before.held.tree
  adds : Adds (· = fresh) before after

/-- If the pager fails before the page is overwritten, nothing links to the new one yet. -/
theorem flank_ends {α : Type} {index : PageIndex} {old added : Page} {page : PageIndex → Page}
    {event : PageIndex → Event} {next : PageIndex → TransactionM σ α}
    {post : α → Holding Transaction σ → Prop}
    {broken : Failure TreeError → Holding Transaction σ → Prop}
    (undoable : Undoable base holding.held holding.session.pages)
    (fetched : fetch holding.session.pages index = some old)
    (own : ∀ shadow ∈ holding.held.shadows, shadow.copy ≠ index)
    (halts : ∀ failure after, Halted base holding failure after → broken failure after)
    (goesOn : ∀ fresh after, Flanked base index page added fresh holding after →
      Ends (next fresh after) post broken) :
    Ends ((do
        let fresh ← within (TreeM.appendPage added)
        overwrite index (page fresh)
        within (SessionM.report (event fresh))
        next fresh : TransactionM σ α) holding) post broken := by
  apply Ends.bind (Ends.mono (append_ends undoable added) (fun _ _ => id) halts)
  rintro fresh first ⟨missing, appendedFirst, held_eq, appended, undoableFirst, adds⟩
  have fetchedFirst := appended.kept _ _ id fetched
  have ownFirst := appended.ne_copy fetched own
  apply Ends.bind (Ends.mono (overwrite_ends undoableFirst fetchedFirst ownFirst (page fresh))
    (fun _ _ => id) fun failure after fails =>
      halts failure after (appended.halted (by rw [held_eq]) fails))
  rintro _ second ⟨written, undoableSecond, tree_eq, stored, copies⟩
  rw [report_bind]
  have different : fresh ≠ index := (PageList.ne_of_fetch fetched missing).symm
  have advances : Advances (· = index) holding second :=
    appended.untouched_then written
  have onlyFresh : Adds (· = fresh) holding second := adds.then_none copies written
  have ownFresh : ∀ shadow ∈ second.held.shadows, shadow.copy ≠ fresh := by
    apply written.ne_copy appendedFirst
    rw [held_eq]
    exact undoable.ne_missing missing
  apply goesOn fresh (reported (event fresh) second)
  exact ⟨missing, ownFresh, written.kept _ _ different appendedFirst, stored,
    { advances with }, undoableSecond, tree_eq.trans (by rw [held_eq]), onlyFresh⟩

/-! ## What the nodes of a transaction are -/

/-- In a transaction that can be undone, levels of nodes rise from a row of pages to the root that
the anchor names. None of these pages is a copy. -/
structure Supports (base : List Page) (limit : Nat) (row : List Link) (levels : List Level)
    (holding : Holding Transaction σ) : Prop where
  undoable : Undoable base holding.held holding.session.pages
  anchored : fetch holding.session.pages holding.held.tree.anchorIndex =
    some holding.held.tree.anchor.toPage
  scaffold : Scaffold limit holding.session.pages row levels holding.held.tree.anchor.root
  anchorOwn : ∀ shadow ∈ holding.held.shadows, shadow.copy ≠ holding.held.tree.anchorIndex
  own : ∀ group ∈ levels.flatten, ∀ shadow ∈ holding.held.shadows, shadow.copy ≠ group.index

/-- The levels over a row of pages were changed to support another row. Only nodes of the levels and
the anchor were overwritten, and of the anchor only the root is another one. No node is given up. -/
structure Propagated (base : List Page) (limit : Nat) (row : List Link)
    (levels later : List Level) (before after : Holding Transaction σ) : Prop where
  supports : Supports base limit row later after
  advances : Advances (fun index => index = before.held.tree.anchorIndex ∨
    ∃ group ∈ levels.flatten, index = group.index) before after
  isNew : ∀ group ∈ later.flatten, (∃ old ∈ levels.flatten, group.index = old.index) ∨
    fetch before.session.pages group.index = none
  retained : ∀ group ∈ levels.flatten, ∃ other ∈ later.flatten, other.index = group.index
  sentinel_eq : after.held.tree.anchor.sentinel = before.held.tree.anchor.sentinel
  sequence_eq : after.held.tree.anchor.sequence = before.held.tree.anchor.sequence

/-- Where a separator got on its way up. Either a node had room and took it, and no page above this
node was overwritten; or no node had room, and the key that got past them all is the only one of a
new root. -/
inductive Risen (path : List Step) (separator : Bytes) (levels later : List Level)
    (before after : Holding Transaction σ) : Prop
  | settled {below above : List Step} {step : Step} {last : Bytes}
      (path_eq : path = below ++ step :: above)
      (lifts : Lifts before.held.tree.config.maxEntries below separator last)
      (roomy : ¬step.Crowded before.held.tree.config.maxEntries last)
      (taken : ∃ keys wider node, step.Takes last keys wider ∧
        fetch after.session.pages step.index = some (Node.toPage node) ∧ node.keys = .ok wider)
      (advances : Advances (fun index => ∃ other ∈ below ++ [step], index = other.index)
        before after)
      (root_eq : after.held.tree.anchor.root = before.held.tree.anchor.root)
      (height_eq : later.length = levels.length) : Risen path separator levels later before after
  | grown {last : Bytes} {right : PageIndex} {node : Node}
      (lifts : Lifts before.held.tree.config.maxEntries path separator last)
      (isNew : fetch before.session.pages after.held.tree.anchor.root = none)
      (fetched : fetch after.session.pages after.held.tree.anchor.root = some node.toPage)
      (reads : node.Reads [last] [before.held.tree.anchor.root, right])
      (height_eq : later.length = levels.length + 1) :
      Risen path separator levels later before after

/-- On the way up only the pages changed that had to, and only nodes and copies were appended. -/
structure Climbed (path : List Step) (separator : Bytes) (levels later : List Level)
    (before after : Holding Transaction σ) : Prop where
  advances : Advances
    (Climbs before.session.pages after.session.pages before.held.tree.anchorIndex path) before after
  adds : Adds (fun index => ∃ group ∈ later.flatten, index = group.index) before after
  risen : Risen path separator levels later before after

/-- The levels have learned of a page more in the row below them, and no more was done than had to
be. -/
abbrev Taught (base : List Page) (limit : Nat) (row : List Link) (path : List Step)
    (separator : Bytes) (levels : List Level) (before after : Holding Transaction σ) : Prop :=
  ∃ later, Propagated base limit row levels later before after ∧
    Climbed path separator levels later before after

/-- Levels of nodes lead from a root to a row of pages. Each of the nodes was a node of other levels
or is new, and none is a copy. -/
def Upheld (row : List Link) (levels : List Level) (root : PageIndex)
    (before after : Holding Transaction σ) : Prop :=
  ∃ later, Trellis after.session.pages row later root ∧ ∀ group ∈ later.flatten,
    (∀ shadow ∈ after.held.shadows, shadow.copy ≠ group.index) ∧
    ((∃ old ∈ levels.flatten, group.index = old.index) ∨
      fetch before.session.pages group.index = none)

/-- The pager failed while the levels over a row of pages were being changed. Levels lead to the row
both from the root that the anchor page names and from the one that the anchor in memory names. -/
structure Lagging (base : List Page) (row : List Link) (levels : List Level)
    (before : Holding Transaction σ) (failure : Failure TreeError)
    (after : Holding Transaction σ) : Prop extends Broken base before failure after where
  changes : Advances (fun index => index = before.held.tree.anchorIndex ∨
    ∃ group ∈ levels.flatten, index = group.index) before after
  stored : ∃ anchor : Anchor,
    fetch after.session.pages before.held.tree.anchorIndex = some anchor.toPage ∧
      anchor.sentinel = before.held.tree.anchor.sentinel ∧
      Upheld row levels anchor.root before after
  held : Upheld row levels after.held.tree.anchor.root before after
  sentinel_eq : after.held.tree.anchor.sentinel = before.held.tree.anchor.sentinel

variable {row : List Link} {level changed left right : Level} {above later levels : List Level}
  {group : Group}

theorem ne_anchor {pages : List Page} {index : PageIndex} {anchor : Anchor}
    (stored : group.Stored pages) (anchored : fetch pages index = some anchor.toPage) :
    group.index ≠ index := by
  rcases stored with ⟨node, fetched, _⟩
  exact ne_of_kind fetched node.kind?_toPage anchored anchor.kind?_toPage (by decide)

theorem Supports.propagated (supports : Supports base limit row levels holding) :
    Propagated base limit row levels levels holding holding where
  supports := supports
  advances := (Advances.refl holding).of_untouched
  isNew group member := Or.inl ⟨group, member, rfl⟩
  retained group member := ⟨group, member, rfl⟩
  sentinel_eq := rfl
  sequence_eq := rfl

theorem Supports.reported (supports : Supports base limit row levels holding) (event : Event) :
    Supports base limit row levels (reported event holding) :=
  { supports with }

theorem Propagated.reported (propagated : Propagated base limit row levels later before after)
    (event : Event) : Propagated base limit row levels later before (reported event after) :=
  { propagated with
    supports := propagated.supports.reported event
    advances := { propagated.advances with } }

/-- What overwrites only nodes of the lowest level leaves the levels above it as they are. -/
theorem Supports.overwritten (supports : Supports base limit row (level :: above) before)
    (advances : Advances (fun index => ∃ group ∈ level, index = group.index) before middle)
    (undoable : Undoable base middle.held middle.session.pages)
    (tree_eq : middle.held.tree = before.held.tree) :
    Supports base limit (level.map Group.link) above middle := by
  rcases scaffold_cons.mp supports.scaffold with ⟨_, layer, scaffold, apart⟩
  have anchored : fetch middle.session.pages before.held.tree.anchorIndex =
      some before.held.tree.anchor.toPage := by
    apply advances.kept _ _ _ supports.anchored
    rintro ⟨group, member, same⟩
    exact ne_anchor (layer.stored group member) supports.anchored same.symm
  refine ⟨undoable, ?_, ?_, ?_, ?_⟩
  · rw [tree_eq]
    exact anchored
  · rw [tree_eq]
    apply scaffold.keep
    intro other member page fetched
    apply advances.kept _ page _ fetched
    rintro ⟨group, inLevel, same⟩
    exact apart group inLevel other member same.symm
  · rw [tree_eq]
    exact advances.ne_copy supports.anchored supports.anchorOwn
  · intro other member
    rcases (scaffold.stored other member).exists_fetch with ⟨page, fetched⟩
    exact advances.ne_copy fetched
      (supports.own other (List.mem_append_right _ member))

/-- If nothing was overwritten, the levels still lead to a row that has a page more. -/
theorem Supports.upheld (supports : Supports base limit row levels holding) {wider : List Link}
    (heads : Heads row wider) (untouched : Advances (fun _ => False) holding after) :
    Upheld wider levels holding.held.tree.anchor.root holding after := by
  refine ⟨levels, (supports.scaffold.trellis.widen heads).keep ?_, ?_⟩
  · exact fun group _ page fetched => untouched.kept _ page id fetched
  · intro group member
    rcases (supports.scaffold.stored group member).exists_fetch with ⟨page, fetched⟩
    exact ⟨untouched.ne_copy fetched (supports.own group member), Or.inl ⟨group, member, rfl⟩⟩

theorem Supports.lagging (supports : Supports base limit row levels holding) {wider : List Link}
    (heads : Heads row wider) (halted : Halted base holding failure after) :
    Lagging base wider levels holding failure after := by
  have untouched := halted.untouched
  have upheld := supports.upheld heads untouched
  refine ⟨halted.toBroken, untouched.of_untouched, ?_, ?_, ?_⟩
  · exact ⟨_, untouched.kept _ _ id supports.anchored, rfl, upheld⟩
  · rw [halted.tree_eq]
    exact upheld
  · rw [halted.tree_eq]

/-! ## A level changes -/

/-- The lowest of some levels was changed: of its nodes some were overwritten, and others are
new. -/
structure Changed (base : List Page) (limit : Nat) (row : List Link) (level : Level)
    (above : List Level) (changed : Level) (before middle : Holding Transaction σ) : Prop where
  supports : Supports base limit row (level :: above) before
  advances : Advances (fun index => ∃ group ∈ level, index = group.index) before middle
  tree_eq : middle.held.tree = before.held.tree
  layer : Layer limit middle.session.pages changed
  isNew : ∀ group ∈ changed, (∃ old ∈ level, group.index = old.index) ∨
    fetch before.session.pages group.index = none ∧
      ∀ shadow ∈ middle.held.shadows, shadow.copy ≠ group.index
  retained : ∀ group ∈ level, ∃ other ∈ changed, other.index = group.index

namespace Changed

variable {index : PageIndex}

theorem ne_anchor (change : Changed base limit row level above changed before middle) :
    ∀ group ∈ changed, group.index ≠ middle.held.tree.anchorIndex := by
  intro group member
  rcases scaffold_cons.mp change.supports.scaffold with ⟨_, layer, _, _⟩
  rw [change.tree_eq]
  rcases change.isNew group member with ⟨old, inLevel, same⟩ | ⟨missing, _⟩
  · rw [same]
    exact Transaction.ne_anchor (layer.stored old inLevel) change.supports.anchored
  · exact (PageList.ne_of_fetch change.supports.anchored missing).symm

theorem ne_above (change : Changed base limit row level above changed before middle) :
    ∀ group ∈ changed, ∀ other ∈ above.flatten, group.index ≠ other.index := by
  intro group member other inAbove
  rcases scaffold_cons.mp change.supports.scaffold with ⟨_, _, scaffold, apart⟩
  rcases change.isNew group member with ⟨old, inLevel, same⟩ | ⟨missing, _⟩
  · rw [same]
    exact apart old inLevel other inAbove
  · rcases (scaffold.stored other inAbove).exists_fetch with ⟨page, fetched⟩
    exact (PageList.ne_of_fetch fetched missing).symm

theorem apart (change : Changed base limit row level above changed before middle)
    (isNew : ∀ group ∈ later.flatten, (∃ old ∈ above.flatten, group.index = old.index) ∨
      fetch middle.session.pages group.index = none) :
    ∀ group ∈ changed, ∀ other ∈ later.flatten, group.index ≠ other.index := by
  intro group member other inLater
  rcases isNew other inLater with ⟨old, inAbove, same⟩ | missing
  · rw [same]
    exact change.ne_above group member old inAbove
  · rcases (change.layer.stored group member).exists_fetch with ⟨page, fetched⟩
    exact PageList.ne_of_fetch fetched missing

variable (upper : Advances (fun index => index = middle.held.tree.anchorIndex ∨
  ∃ group ∈ above.flatten, index = group.index) middle after)

include upper

theorem kept (change : Changed base limit row level above changed before middle) :
    ∀ group ∈ changed, ∀ page, fetch middle.session.pages group.index = some page →
      fetch after.session.pages group.index = some page := by
  intro group member page fetched
  apply upper.kept _ page _ fetched
  rintro (isAnchor | ⟨other, inAbove, same⟩)
  · exact change.ne_anchor group member isAnchor
  · exact change.ne_above group member other inAbove same

theorem layer_after (change : Changed base limit row level above changed before middle) :
    Layer limit after.session.pages changed :=
  change.layer.keep (change.kept upper)

theorem own (change : Changed base limit row level above changed before middle) :
    ∀ group ∈ changed, ∀ shadow ∈ after.held.shadows, shadow.copy ≠ group.index := by
  intro group member
  rcases (change.layer.stored group member).exists_fetch with ⟨page, fetched⟩
  apply upper.ne_copy fetched
  rcases change.isNew group member with ⟨old, inLevel, same⟩ | ⟨_, own⟩
  · rcases scaffold_cons.mp change.supports.scaffold with ⟨_, layer, _, _⟩
    rcases (layer.stored old inLevel).exists_fetch with ⟨oldPage, oldFetched⟩
    rw [same]
    exact change.advances.ne_copy oldFetched
      (change.supports.own old (List.mem_append_left _ inLevel))
  · exact own

theorem advances_after (change : Changed base limit row level above changed before middle) :
    Advances (fun index => index = before.held.tree.anchorIndex ∨
      ∃ group ∈ (level :: above).flatten, index = group.index) before after := by
  apply (change.advances.trans upper).mono
  rintro index _ _ (⟨group, member, same⟩ | isAnchor | ⟨group, member, same⟩)
  · exact Or.inr ⟨group, List.mem_append_left _ member, same⟩
  · rw [change.tree_eq] at isAnchor
    exact Or.inl isAnchor
  · exact Or.inr ⟨group, List.mem_append_right _ member, same⟩

omit upper in
/-- A node of the levels afterwards has taken the place of one from before, or it is on a page that
is new. -/
theorem isNew_after (change : Changed base limit row level above changed before middle)
    (isNew : ∀ group ∈ later.flatten, (∃ old ∈ above.flatten, group.index = old.index) ∨
      fetch middle.session.pages group.index = none) :
    ∀ group ∈ (changed :: later).flatten,
      (∃ old ∈ (level :: above).flatten, group.index = old.index) ∨
        fetch before.session.pages group.index = none := by
  intro group member
  rcases List.mem_append.mp member with inChanged | inLater
  · rcases change.isNew group inChanged with ⟨old, inLevel, same⟩ | ⟨missing, _⟩
    · exact Or.inl ⟨old, List.mem_append_left _ inLevel, same⟩
    · exact Or.inr missing
  · rcases isNew group inLater with ⟨old, inAbove, same⟩ | missing
    · exact Or.inl ⟨old, List.mem_append_right _ inAbove, same⟩
    · exact Or.inr (PageList.fetch_none_of_le change.advances.longer missing)

end Changed

/-- A level was changed, and then the levels above it were. -/
theorem Propagated.cons (change : Changed base limit row level above changed before middle)
    (upper : Propagated base limit (changed.map Group.link) above later middle after) :
    Propagated base limit (changed.flatMap Group.links) (level :: above) (changed :: later)
      before after := by
  refine ⟨⟨upper.supports.undoable, upper.supports.anchored, ?_, upper.supports.anchorOwn, ?_⟩,
    change.advances_after upper.advances, change.isNew_after upper.isNew, ?_, ?_, ?_⟩
  · exact scaffold_cons.mpr ⟨rfl, change.layer_after upper.advances, upper.supports.scaffold,
      change.apart upper.isNew⟩
  · intro group member
    exact (List.mem_append.mp member).elim (change.own upper.advances group)
      (upper.supports.own group)
  · intro group member
    rcases List.mem_append.mp member with inLevel | inAbove
    · rcases change.retained group inLevel with ⟨other, inChanged, same⟩
      exact ⟨other, List.mem_append_left _ inChanged, same⟩
    · rcases upper.retained group inAbove with ⟨other, inLater, same⟩
      exact ⟨other, List.mem_append_right _ inLater, same⟩
  · rw [upper.sentinel_eq, change.tree_eq]
  · rw [upper.sequence_eq, change.tree_eq]

/-- Levels that were put right above a changed level uphold, together with it, what is below. -/
theorem Upheld.cons {root : PageIndex}
    (change : Changed base limit row level above changed before middle)
    (advances : Advances (fun index => index = middle.held.tree.anchorIndex ∨
      ∃ group ∈ above.flatten, index = group.index) middle after)
    (upper : Upheld (changed.map Group.link) above root middle after) :
    Upheld (changed.flatMap Group.links) (level :: above) root before after := by
  rcases upper with ⟨later, trellis, nodes⟩
  have isNew := fun group member => (nodes group member).2
  refine ⟨changed :: later, ?_, ?_⟩
  · exact Trellis.cons (change.layer_after advances) trellis (change.apart isNew)
  · intro group member
    refine ⟨?_, change.isNew_after isNew group member⟩
    exact (List.mem_append.mp member).elim (change.own advances group)
      fun inLater => (nodes group inLater).1

theorem Lagging.cons (change : Changed base limit row level above changed before middle)
    (upper : Lagging base (changed.map Group.link) above middle failure after) :
    Lagging base (changed.flatMap Group.links) (level :: above) before failure after := by
  refine ⟨change.advances.broken upper.toBroken, change.advances_after upper.changes, ?_,
    Upheld.cons change upper.changes upper.held, ?_⟩
  · rcases upper.stored with ⟨anchor, fetched, sentinel_eq, upheld⟩
    rw [change.tree_eq] at fetched sentinel_eq
    exact ⟨anchor, fetched, sentinel_eq, Upheld.cons change upper.changes upheld⟩
  · rw [upper.sentinel_eq, change.tree_eq]

/-! ## A new root -/

omit [Pager σ] [AtomicPager σ] in
theorem rootLayer {pages : List Page} {root : PageIndex} {node : Node} {links : List Link}
    (fetched : fetch pages root = some node.toPage) (linksTo : node.LinksTo links)
    (several : 2 ≤ links.length) (slim : links.length ≤ limit + 1) :
    Layer limit pages [⟨root, links⟩] := by
  refine ⟨?_, ?_, ?_, List.pairwise_singleton ..⟩
  · exact List.forall_mem_singleton.mpr ⟨node, fetched, linksTo⟩
  · exact List.forall_mem_singleton.mpr several
  · exact List.forall_mem_singleton.mpr slim

section

variable {child root : PageIndex} {link : Link} (missing : fetch before.session.pages root = none)
  (rootOwn : ∀ shadow ∈ after.held.shadows, shadow.copy ≠ root)
  (layer : Layer limit after.session.pages [⟨root, [⟨[], child⟩, link]⟩])

include missing rootOwn layer

theorem Upheld.newRoot : Upheld [⟨[], child⟩, link] [] root before after := by
  refine ⟨[[⟨root, [⟨[], child⟩, link]⟩]], Trellis.cons layer (Trellis.single root) (by simp), ?_⟩
  intro group member
  rw [congrArg Group.index (List.mem_singleton.mp member)]
  exact ⟨rootOwn, Or.inr missing⟩

/-- When the anchor names the new root, in memory and where it is stored, the root supports the
pages below it. -/
theorem Propagated.newRoot (supports : Supports base limit [⟨[], child⟩] [] before)
    (advances : Advances (· = before.held.tree.anchorIndex) before after)
    (undoable : Undoable base after.held after.session.pages)
    (tree_eq : after.held.tree =
      { before.held.tree with anchor := { before.held.tree.anchor with root } })
    (anchored : fetch after.session.pages before.held.tree.anchorIndex =
      some ({ before.held.tree.anchor with root } : Anchor).toPage) :
    Propagated base limit [⟨[], child⟩, link] [] [[⟨root, [⟨[], child⟩, link]⟩]] before after := by
  have onlyRoot : ∀ group ∈ [[Group.mk root [⟨[], child⟩, link]]].flatten, group.index = root :=
    fun group member => congrArg Group.index (List.mem_singleton.mp member)
  refine ⟨⟨undoable, ?_, ?_, ?_, ?_⟩, advances.mono fun _ _ _ => Or.inl, ?_, by simp, ?_, ?_⟩
  · rw [tree_eq]
    exact anchored
  · rw [tree_eq]
    exact ⟨⟨rfl, rfl⟩, by simpa using layer.stored, by simp, by simpa using layer.slim,
      List.pairwise_singleton ..⟩
  · rw [tree_eq]
    exact advances.ne_copy supports.anchored supports.anchorOwn
  · intro group member
    rw [onlyRoot group member]
    exact rootOwn
  · intro group member
    rw [onlyRoot group member]
    exact Or.inr missing
  · rw [tree_eq]
  · rw [tree_eq]

end

/-- A new root links to the old one and to the page next to it. -/
theorem growRoot_ends {child : PageIndex} (supports : Supports base limit [⟨[], child⟩] [] holding)
    {link : Link} (small : link.low.length ≤ maxKeySize) (enough : 1 ≤ limit) :
    Ends (growRoot child link.low link.index holding)
      (fun _ after => Taught base limit [⟨[], child⟩, link] [] link.low [] holding after)
      (Lagging base [⟨[], child⟩, link] [] holding) := by
  have heads : Heads ([⟨[], child⟩] ++ []) ([⟨[], child⟩] ++ link :: []) :=
    Heads.without (by simp) link
  have halts : ∀ failure after, Halted base holding failure after →
      Lagging base [⟨[], child⟩, link] [] holding failure after :=
    fun _ _ => supports.lagging heads
  have slim : [Link.mk [] child, link].length ≤ limit + 1 := Nat.succ_le_succ enough
  rcases Node.pair_yields child small with ⟨node, pairs, linksTo⟩
  simp only [growRoot]
  rw [Ends.lift_bind pairs]
  apply Ends.bind (Ends.mono (append_ends supports.undoable node.toPage) (fun _ _ => id) halts)
  rintro root first ⟨missing, rootFetched, held_eq, appended, undoableFirst, adds⟩
  rw [HoldingM.held_bind]
  have anchorFirst := appended.kept _ _ id supports.anchored
  rw [← appended.anchorIndex_eq] at anchorFirst
  apply Ends.bind (Ends.mono (shadow_ends undoableFirst anchorFirst) (fun _ _ => id)
    fun failure after fails => halts failure after (appended.halted (by rw [held_eq]) fails))
  rintro _ second ⟨shadowed, undoableSecond, tree_eq, safe, copies⟩
  -- Up to here the anchor is as it was, and the new root is a page that nothing leads to.
  have earlier : Advances (fun _ => False) holding second :=
    appended.then_untouched shadowed
  have tree_eq : second.held.tree = holding.held.tree := tree_eq.trans (by rw [held_eq])
  have anchorSecond := earlier.kept _ _ id supports.anchored
  have notCopy := earlier.ne_copy supports.anchored supports.anchorOwn
  have rootSecond := shadowed.kept _ _ id rootFetched
  have rootOwn : ∀ shadow ∈ second.held.shadows, shadow.copy ≠ root := by
    apply shadowed.ne_copy rootFetched
    rw [held_eq]
    exact supports.undoable.ne_missing missing
  rw [appended.anchorIndex_eq, ← tree_eq] at safe
  rw [← tree_eq] at anchorSecond notCopy
  rw [setAnchor_bind, held_eq, ← tree_eq]
  apply Ends.bind (Ends.mono (writeAnchor_ends undoableSecond anchorSecond notCopy safe _)
    (fun _ _ => id) ?_)
  · rintro _ third ⟨written, undoableThird, tree_eq_third, anchorThird, copiesThird⟩
    rw [tree_eq] at written anchorThird tree_eq_third
    have rootNotAnchor : root ≠ holding.held.tree.anchorIndex :=
      (PageList.ne_of_fetch supports.anchored missing).symm
    have layer := rootLayer (written.kept _ _ rootNotAnchor rootSecond) linksTo (Nat.le_refl 2) slim
    have advances : Advances (· = holding.held.tree.anchorIndex) holding third :=
      earlier.untouched_then written
    have propagated := Propagated.newRoot missing (written.ne_copy rootSecond rootOwn) layer
      supports advances undoableThird tree_eq_third anchorThird
    have addsAll := (adds.then_none copies shadowed).then_none copiesThird written
    have root_eq : third.held.tree.anchor.root = root := by rw [tree_eq_third]
    have child_eq : child = holding.held.tree.anchor.root :=
      congrArg Link.index (List.singleton_inj.mp supports.scaffold.rises)
    have reads : node.Reads [link.low] [holding.held.tree.anchor.root, link.index] := by
      rw [← child_eq]
      exact linksTo.reads
    refine ⟨_, propagated.reported _, { advances with }, ?_,
      .grown (.arrived link.low) ?_ ?_ reads rfl⟩
    · apply addsAll.mono
      rintro _ rfl
      exact ⟨⟨_, [⟨[], child⟩, link]⟩, by simp, rfl⟩
    · exact root_eq.symm ▸ missing
    · exact root_eq.symm ▸ written.kept _ _ rootNotAnchor rootSecond
  · -- The anchor in memory names the new root already, and the anchor page still the old one.
    intro failure third fails
    have untouched : Advances (fun _ => False) second third := fails.untouched.of_anchoredAt
    have both : Advances (fun _ => False) holding third :=
      earlier.then_untouched untouched
    have layer := rootLayer (untouched.kept _ _ id rootSecond) linksTo (Nat.le_refl 2) slim
    refine ⟨earlier.broken fails.of_anchoredAt, both.of_untouched,
      ⟨_, both.kept _ _ id supports.anchored, rfl, supports.upheld heads both⟩, ?_, ?_⟩
    · rw [fails.tree_eq]
      exact Upheld.newRoot missing (untouched.ne_copy rootSecond rootOwn) layer
    · rw [fails.tree_eq, ← tree_eq]
      rfl

/-! ## The way up -/

/-- A node was replaced by one that looks the same from above and new ones to its right. -/
theorem Changed.replace {first : Group} (more : Level)
    (supports : Supports base limit row ((left ++ group :: right) :: above) before)
    (written : Advances (· = group.index) before middle)
    (tree_eq : middle.held.tree = before.held.tree) (link_eq : first.link = group.link)
    (isNew : ∀ other ∈ more, fetch before.session.pages other.index = none ∧
      ∀ shadow ∈ middle.held.shadows, shadow.copy ≠ other.index)
    (distinct : (more.map Group.index).Nodup)
    (stored : ∀ other ∈ first :: more, other.Stored middle.session.pages)
    (several : ∀ other ∈ first :: more, 2 ≤ other.links.length)
    (slim : ∀ other ∈ first :: more, other.links.length ≤ limit + 1) :
    Changed base limit row (left ++ group :: right) above (left ++ first :: (more ++ right))
      before middle := by
  rcases scaffold_cons.mp supports.scaffold with ⟨_, layer, _, _⟩
  have index_eq : first.index = group.index := congrArg Link.index link_eq
  refine ⟨supports, ?_, tree_eq, ?_, ?_, ?_⟩
  · apply written.mono
    intro index _ _ same
    exact ⟨group, by simp, same⟩
  · exact layer.replace (fun index page different => written.kept index page different) index_eq
      (fun other member => (isNew other member).1) distinct stored several slim
  · intro other member
    rcases List.mem_append.mp member with inLeft | member
    · exact Or.inl ⟨other, by simp [inLeft], rfl⟩
    · rcases List.mem_cons.mp member with rfl | member
      · exact Or.inl ⟨group, by simp, index_eq⟩
      · rcases List.mem_append.mp member with inMore | inRight
        · exact Or.inr (isNew other inMore)
        · exact Or.inl ⟨other, by simp [inRight], rfl⟩
  · intro other member
    rcases List.mem_append.mp member with inLeft | member
    · exact ⟨other, by simp [inLeft], rfl⟩
    · rcases List.mem_cons.mp member with rfl | inRight
      · exact ⟨first, by simp, index_eq⟩
      · exact ⟨other, by simp [inRight], rfl⟩

omit [Pager σ] [AtomicPager σ] in
/-- A node that gets a further link widens the row below it. -/
theorem heads_of_links {near far : List Link} (nonempty : near ≠ [])
    (links_eq : group.links = near ++ far)
    (divides : (left ++ group :: right).flatMap Group.links = row) (link : Link) :
    Heads row
      (left.flatMap Group.links ++ ((near ++ link :: far) ++ right.flatMap Group.links)) := by
  have front : left.flatMap Group.links ++ near ≠ [] := by simp [nonempty]
  have heads : Heads _ (_ ++ link :: (far ++ right.flatMap Group.links)) :=
    Heads.without front link
  rw [← divides, List.flatMap_append, List.flatMap_cons, links_eq]
  simpa using heads

omit [Pager σ] [AtomicPager σ] in
theorem link_eq_of_near {near far links : List Link} (nonempty : near ≠ [])
    (links_eq : group.links = near ++ far) (low_eq : Node.lowOf links = Node.lowOf near) :
    Group.link ⟨group.index, links⟩ = group.link := by
  have same : Node.lowOf links = Node.lowOf group.links := by
    rw [links_eq, Node.lowOf_append nonempty, low_eq]
  exact congrArg (fun low => Link.mk low group.index) same

/-- A node was replaced by one with a further link. -/
theorem Changed.widen {near far : List Link} {link : Link} {node : Node}
    (supports : Supports base limit row ((left ++ group :: right) :: above) before)
    (nonempty : near ≠ []) (links_eq : group.links = near ++ far)
    (linksTo : node.LinksTo (near ++ link :: far))
    (slim : (near ++ link :: far).length ≤ limit + 1)
    (written : Advances (· = group.index) before middle)
    (tree_eq : middle.held.tree = before.held.tree)
    (stored : fetch middle.session.pages group.index = some node.toPage) :
    Changed base limit row (left ++ group :: right) above
      (left ++ ⟨group.index, near ++ link :: far⟩ :: ([] ++ right)) before middle := by
  rcases scaffold_cons.mp supports.scaffold with ⟨_, layer, _, _⟩
  have several := layer.several group (by simp)
  rw [links_eq, List.length_append] at several
  have link_eq : Group.link ⟨group.index, near ++ link :: far⟩ = group.link :=
    link_eq_of_near nonempty links_eq (Node.lowOf_append nonempty)
  apply Changed.replace [] supports written tree_eq link_eq _ List.nodup_nil
  · exact List.forall_mem_singleton.mpr ⟨node, stored, linksTo⟩
  · have longer : 2 ≤ (near ++ link :: far).length := by
      simp only [List.length_append, List.length_cons]
      omega
    exact List.forall_mem_singleton.mpr longer
  · exact List.forall_mem_singleton.mpr slim
  · exact List.forall_mem_nil _

/-- A node that has room gets the further link, and the levels above it stay as they are. -/
theorem widen_ends {near far : List Link} {link : Link} {node : Node} {step : Step}
    (supports : Supports base limit row ((left ++ group :: right) :: above) holding)
    (index_eq : step.index = group.index) (path : List Step) (nonempty : near ≠ [])
    (links_eq : group.links = near ++ far) (linksTo : node.LinksTo (near ++ link :: far))
    (slim : (near ++ link :: far).length ≤ limit + 1) {keys : List Bytes}
    (takes : step.Takes link.low keys ((near ++ link :: far).tail.map Link.low))
    (roomy : ¬step.Crowded holding.held.tree.config.maxEntries link.low) :
    Ends (overwrite group.index node.toPage holding)
      (fun _ after => Taught base limit
        (left.flatMap Group.links ++ ((near ++ link :: far) ++ right.flatMap Group.links))
        (step :: path) link.low ((left ++ group :: right) :: above) holding after)
      (Lagging base
        (left.flatMap Group.links ++ ((near ++ link :: far) ++ right.flatMap Group.links))
        ((left ++ group :: right) :: above) holding) := by
  rcases scaffold_cons.mp supports.scaffold with ⟨divides, layer, _, _⟩
  have member : group ∈ left ++ group :: right := by simp
  rcases (layer.stored group member).exists_fetch with ⟨old, fetched⟩
  have own := supports.own group (List.mem_append_left _ member)
  apply Ends.mono (overwrite_ends supports.undoable fetched own node.toPage) _
    fun _ _ => supports.lagging (heads_of_links nonempty links_eq divides link)
  rintro _ after ⟨written, undoable, tree_eq, stored, copies⟩
  have link_eq : Group.link ⟨group.index, near ++ link :: far⟩ = group.link :=
    link_eq_of_near nonempty links_eq (Node.lowOf_append nonempty)
  have change := Changed.widen supports nonempty links_eq linksTo slim written tree_eq stored
  have upper := (supports.overwritten change.advances undoable tree_eq).propagated
  have row_eq : (left ++ group :: right).map Group.link =
      (left ++ Group.mk group.index (near ++ link :: far) :: ([] ++ right)).map Group.link := by
    simp [link_eq]
  rw [row_eq] at upper
  have propagated := Propagated.cons change upper
  rw [List.flatMap_append, List.flatMap_cons] at propagated
  refine ⟨_, propagated, ?_, copies.of_none, ?_⟩
  · exact written.mono fun _ _ _ same => Or.inl (same.trans index_eq.symm)
  · apply Risen.settled (List.nil_append _).symm (.arrived link.low) roomy _ _
    · rw [tree_eq]
    · rfl
    · exact ⟨keys, _, node, takes, index_eq ▸ stored, linksTo.keys_eq⟩
    · exact written.mono fun _ _ _ same => ⟨step, List.mem_singleton.mpr rfl,
        same.trans index_eq.symm⟩

omit [Pager σ] [AtomicPager σ] in
/-- The lower part of a node looks from above as the node did. -/
theorem link_eq_of_parted {near far lower upper : List Link} {link : Link} {sides : NodeSplit}
    (nonempty : near ≠ []) (links_eq : group.links = near ++ far)
    (parted : Node.PartedAs (near ++ link :: far) lower upper sides)
    (lowerSeveral : 2 ≤ lower.length) : Group.link ⟨group.index, lower⟩ = group.link := by
  have lowerNonempty : lower ≠ [] := List.length_pos_iff.mp (by omega)
  apply link_eq_of_near nonempty links_eq
  rw [← Node.lowOf_append lowerNonempty, ← parted.links_eq, Node.lowOf_append nonempty]

/-- When a node was split, its two halves stand in its place in the level. -/
theorem Changed.divide {near far lower upper : List Link} {link : Link} {sides : NodeSplit}
    {sibling : PageIndex}
    (supports : Supports base limit row ((left ++ group :: right) :: above) before)
    (nonempty : near ≠ []) (links_eq : group.links = near ++ far)
    (parted : Node.PartedAs (near ++ link :: far) lower upper sides)
    (lowerSeveral : 2 ≤ lower.length) (upperSeveral : 2 ≤ upper.length)
    (flanked : Flanked base group.index (fun _ => sides.left.toPage) sides.right.toPage sibling
      before middle) :
    Changed base limit row (left ++ group :: right) above
      (left ++ ⟨group.index, lower⟩ :: ([⟨sibling, upper⟩] ++ right)) before middle := by
  rcases scaffold_cons.mp supports.scaffold with ⟨_, layer, _, _⟩
  have slim := layer.slim group (by simp)
  have lengths := congrArg List.length parted.links_eq
  rw [links_eq] at slim
  simp only [List.length_append, List.length_cons] at slim lengths
  apply Changed.replace [⟨sibling, upper⟩] supports flanked.advances flanked.tree_eq
    (link_eq_of_parted nonempty links_eq parted lowerSeveral) _ (List.pairwise_singleton ..)
  · have storedRight : Group.Stored middle.session.pages ⟨sibling, upper⟩ :=
      ⟨sides.right, flanked.appended, parted.right⟩
    exact List.forall_mem_cons.mpr
      ⟨⟨sides.left, flanked.written, parted.left⟩, List.forall_mem_singleton.mpr storedRight⟩
  · exact List.forall_mem_cons.mpr
      ⟨lowerSeveral, List.forall_mem_singleton.mpr upperSeveral⟩
  · have lowerSlim : lower.length ≤ limit + 1 := by omega
    have upperSlim : upper.length ≤ limit + 1 := by omega
    exact List.forall_mem_cons.mpr ⟨lowerSlim, List.forall_mem_singleton.mpr upperSlim⟩
  · exact List.forall_mem_singleton.mpr ⟨flanked.missing, flanked.own⟩

/-- A separator rises from a node that was split. -/
theorem Risen.through {step : Step} {path : List Step} {separator higher : Bytes}
    (crowded : step.Crowded before.held.tree.config.maxEntries separator)
    (promotes : step.Promotes separator higher)
    (advances : Advances (· = step.index) before middle)
    (tree_eq : middle.held.tree = before.held.tree)
    (risen : Risen path higher above later middle after) :
    Risen (step :: path) separator (level :: above) (changed :: later) before after := by
  cases risen with
  | settled path_eq lifts roomy taken touched root_eq height_eq =>
      rw [tree_eq] at lifts roomy root_eq
      have same : (changed :: later).length = (level :: above).length := congrArg Nat.succ height_eq
      apply Risen.settled (congrArg (List.cons step) path_eq) (.through crowded promotes lifts)
        roomy taken _ root_eq same
      apply (advances.trans touched).mono
      rintro index _ _ (same | ⟨other, member, same⟩)
      · exact ⟨step, List.mem_cons_self, same⟩
      · exact ⟨other, List.mem_cons_of_mem _ member, same⟩
  | grown lifts isNew fetched reads height_eq =>
      rw [tree_eq] at lifts reads
      exact .grown (.through crowded promotes lifts)
        (PageList.fetch_none_of_le advances.longer isNew) fetched reads
        (congrArg Nat.succ height_eq)

/-- A node was split, and then the levels above it were changed. -/
theorem Climbed.divide {near far lower upper : List Link} {link : Link} {sides : NodeSplit}
    {sibling : PageIndex} {step : Step} {path : List Step}
    (flanked : Flanked base group.index (fun _ => sides.left.toPage) sides.right.toPage sibling
      before middle)
    (change : Changed base limit row level above
      (left ++ ⟨group.index, lower⟩ :: ([⟨sibling, upper⟩] ++ right)) before middle)
    (index_eq : step.index = group.index) (holds : step.node.Holds group.keys group.children)
    (links_eq : group.links = near ++ far)
    (parted : Node.PartedAs (near ++ link :: far) lower upper sides)
    (crowded : step.Crowded before.held.tree.config.maxEntries link.low)
    (promotes : step.Promotes link.low sides.separator)
    (upperLevels : Propagated base limit
      ((left ++ Group.mk group.index lower :: ([⟨sibling, upper⟩] ++ right)).map Group.link) above
      later middle after)
    (climbed : Climbed path sides.separator above later middle after) :
    Climbed (step :: path) link.low (level :: above)
      ((left ++ ⟨group.index, lower⟩ :: ([⟨sibling, upper⟩] ++ right)) :: later) before after := by
  have kept := change.kept upperLevels.advances
  have splits : step.Splits before.session.pages after.session.pages := by
    refine ⟨sides.left, sides.right, sibling, link.index, near.map Link.index, far.map Link.index,
      lower.map Link.index, upper.map Link.index, flanked.missing, ?_, ?_, ?_,
      parted.left.children_eq, parted.right.children_eq, ?_⟩
    · rw [index_eq]
      exact kept ⟨group.index, lower⟩ (by simp) _ flanked.written
    · exact kept ⟨sibling, upper⟩ (by simp) _ flanked.appended
    · rw [holds.children_eq, Group.children, links_eq, List.map_append]
    · have indices_eq := congrArg (List.map Link.index) parted.links_eq
      simpa using indices_eq
  constructor
  · apply (flanked.advances.trans climbed.advances).mono
    rintro index _ _ (same | further)
    · exact Or.inl (same.trans index_eq.symm)
    · rw [flanked.tree_eq] at further
      exact Or.inr ⟨splits, further.of_longer flanked.advances.longer⟩
  · apply (flanked.adds.trans climbed.adds climbed.advances).mono
    rintro index (rfl | ⟨other, member, same⟩)
    · exact ⟨⟨index, upper⟩, by simp, rfl⟩
    · exact ⟨other, List.mem_append_right _ member, same⟩
  · apply climbed.risen.through crowded promotes _ flanked.tree_eq
    rw [index_eq]
    exact flanked.advances

/-- A node that was split is replaced by two, of which the levels above learn. -/
theorem divide_ends {near far lower upper : List Link} {link : Link} {sides : NodeSplit}
    {event : PageIndex → Event} {step : Step} {path : List Step}
    (supports : Supports base limit row ((left ++ group :: right) :: above) holding)
    (index_eq : step.index = group.index) (holds : step.node.Holds group.keys group.children)
    (nonempty : near ≠ []) (links_eq : group.links = near ++ far)
    (parted : Node.PartedAs (near ++ link :: far) lower upper sides)
    (lowerSeveral : 2 ≤ lower.length) (upperSeveral : 2 ≤ upper.length)
    (crowded : step.Crowded holding.held.tree.config.maxEntries link.low)
    (promotes : step.Promotes link.low sides.separator)
    (propagates : ∀ (sibling : PageIndex) (middle : Holding Transaction σ),
      middle.held.tree.config = holding.held.tree.config →
      Supports base limit (left.map Group.link ++ [group.link] ++ right.map Group.link) above
        middle →
      Ends (propagate path group.index sides.separator sibling middle)
        (fun _ after => Taught base limit (left.map Group.link ++ [group.link] ++
          Group.link ⟨sibling, upper⟩ :: right.map Group.link) path sides.separator above middle
            after)
        (Lagging base (left.map Group.link ++ [group.link] ++
          Group.link ⟨sibling, upper⟩ :: right.map Group.link) above middle)) :
    Ends ((do
        let sibling ← within (TreeM.appendPage sides.right.toPage)
        overwrite group.index sides.left.toPage
        within (SessionM.report (event sibling))
        propagate path group.index sides.separator sibling : TransactionM σ Unit) holding)
      (fun _ after => Taught base limit
        (left.flatMap Group.links ++ ((near ++ link :: far) ++ right.flatMap Group.links))
        (step :: path) link.low ((left ++ group :: right) :: above) holding after)
      (Lagging base
        (left.flatMap Group.links ++ ((near ++ link :: far) ++ right.flatMap Group.links))
        ((left ++ group :: right) :: above) holding) := by
  rcases scaffold_cons.mp supports.scaffold with ⟨divides, layer, _, _⟩
  have member : group ∈ left ++ group :: right := by simp
  rcases (layer.stored group member).exists_fetch with ⟨old, fetched⟩
  apply flank_ends supports.undoable fetched (supports.own group (List.mem_append_left _ member))
    fun _ _ => supports.lagging (heads_of_links nonempty links_eq divides link)
  intro sibling middle flanked
  have link_eq := link_eq_of_parted nonempty links_eq parted lowerSeveral
  have change := Changed.divide supports nonempty links_eq parted lowerSeveral upperSeveral flanked
  have supportsAbove := supports.overwritten change.advances flanked.undoable flanked.tree_eq
  rw [List.map_append, List.map_cons, List.append_cons] at supportsAbove
  have row_eq : left.map Group.link ++ [group.link] ++
      Group.link ⟨sibling, upper⟩ :: right.map Group.link =
        (left ++ Group.mk group.index lower :: ([⟨sibling, upper⟩] ++ right)).map Group.link := by
    simp [link_eq]
  have levelRow_eq :
      left.flatMap Group.links ++ ((near ++ link :: far) ++ right.flatMap Group.links) =
        (left ++ Group.mk group.index lower :: ([⟨sibling, upper⟩] ++ right)).flatMap
          Group.links := by
    simp [parted.links_eq]
  rw [levelRow_eq]
  -- The levels above learn of the new node as this one learned of the new link.
  apply Ends.mono (propagates sibling middle (congrArg Tree.config flanked.tree_eq) supportsAbove)
  · rintro _ after ⟨later, upperLevels, climbed⟩
    rw [row_eq] at upperLevels
    exact ⟨_, Propagated.cons change upperLevels,
      Climbed.divide flanked change index_eq holds links_eq parted crowded promotes upperLevels
        climbed⟩
  · intro failure after fails
    rw [row_eq] at fails
    exact Lagging.cons change fails

omit [Pager σ] [AtomicPager σ] in
/-- The least keys of a level are least keys of the row below it, and short if those are. -/
theorem small_of_level {pages : List Page} {root : PageIndex} {front back : List Link} {link : Link}
    (scaffold : Scaffold limit pages (front ++ back) (level :: above) root)
    (small : ∀ other ∈ front ++ link :: back, other.low.length ≤ maxKeySize) :
    ∀ other ∈ level.map Group.link, other.low.length ≤ maxKeySize := by
  intro other member
  rcases List.mem_map.mp member with ⟨group, inLevel, rfl⟩
  have nonempty := scaffold.links_ne_nil group (List.mem_append_left _ inLevel)
  rcases Node.exists_low nonempty with ⟨first, inLinks, low_eq⟩
  change (Node.lowOf group.links).length ≤ maxKeySize
  rw [low_eq]
  apply small
  have inRow : first ∈ front ++ back := by
    rw [← (scaffold_cons.mp scaffold).1]
    exact List.mem_flatMap_of_mem inLevel inLinks
  rcases List.mem_append.mp inRow with inFront | inBack
  · exact List.mem_append_left _ inFront
  · exact List.mem_append_right _ (List.mem_cons_of_mem _ inBack)

omit [Pager σ] [AtomicPager σ] in
/-- The separator between the two halves of a node is one of its keys, so it is no longer than a key
may be. -/
theorem small_of_parted {near far lower upper : List Link} {link : Link} {sibling : PageIndex}
    (smallHere : ∀ other ∈ near ++ link :: far, other.low.length ≤ maxKeySize)
    (smallAbove : ∀ other ∈ (left ++ group :: right).map Group.link,
      other.low.length ≤ maxKeySize)
    (links_eq : near ++ link :: far = lower ++ upper) (nonempty : upper ≠ []) :
    ∀ other ∈ left.map Group.link ++ [group.link] ++
      Group.link ⟨sibling, upper⟩ :: right.map Group.link, other.low.length ≤ maxKeySize := by
  refine forall_mem_insert.mpr ⟨?_, fun other member => smallAbove other ?_⟩
  · rcases Node.exists_low nonempty with ⟨first, inUpper, low_eq⟩
    change (Node.lowOf upper).length ≤ maxKeySize
    rw [low_eq]
    apply smallHere
    rw [links_eq]
    exact List.mem_append_right _ inUpper
  · rwa [List.map_append, List.map_cons, List.append_cons]

/-- The nodes above a page learn of a new page to its right. -/
theorem propagate_ends {front back : List Link} {path : List Step}
    (trail : Trail front back path levels) (bounded : limit ≤ 255) {child : PageIndex}
    (ends : EndsAt front child) (link : Link)
    (supports : Supports base limit (front ++ back) levels holding)
    (small : ∀ other ∈ front ++ link :: back, other.low.length ≤ maxKeySize)
    (roomy : holding.held.tree.config.maxEntries ≤ limit) :
    Ends (propagate path child link.low link.index holding)
      (fun _ after => Taught base limit (front ++ link :: back) path link.low levels holding after)
      (Lagging base (front ++ link :: back) levels holding) := by
  -- By induction on the nodes above the page, from the lowest one up. Each either has room for the
  -- link, and the way ends there, or is split, and the next one gets a link.
  induction trail generalizing child link holding with
  | top front back =>
      have shape := supports.scaffold.rises.eq_of_endsAt ends
      rw [shape.1, shape.2] at supports small ⊢
      have minimum := holding.held.tree.config.three_le_maxEntries
      exact growRoot_ends supports (small link (by simp)) (by omega)
  | @through left right group near far step path above links_eq nonempty index_eq taken_eq holds
      rest ih =>
      have childEnds := ends.of_append nonempty
      have smallHere : ∀ other ∈ near ++ link :: far, other.low.length ≤ maxKeySize := by
        intro other member
        apply small other
        simp only [List.mem_append, List.mem_cons] at member ⊢
        grind
      have smallAbove := small_of_level supports.scaffold small
      have linksTo : step.node.LinksTo (near ++ far) := by
        rw [← links_eq]
        exact holds
      rcases linksTo.setChild_yields childEnds with ⟨node, sets, nodeLinks⟩
      have place : (step.taken + 1).toNat = near.length - 1 := by omega
      rw [propagate, place, taken_eq, index_eq, Ends.lift_bind sets,
        Ends.lift_bind (nodeLinks.overflowsWith_eq nonempty (smallHere link (by simp))),
        HoldingM.held_bind]
      have row_eq : left.flatMap Group.links ++ near ++
          link :: (far ++ right.flatMap Group.links) =
            left.flatMap Group.links ++ ((near ++ link :: far) ++ right.flatMap Group.links) := by
        simp
      rw [row_eq]
      have count_eq : node.count = step.node.count :=
        Nat.succ.inj (nodeLinks.length_eq.symm.trans linksTo.length_eq)
      have crowded_iff : step.Crowded holding.held.tree.config.maxEntries link.low ↔ _ :=
        Step.crowded_iff_of_linksTo linksTo nonempty taken_eq link
      rw [← count_eq] at crowded_iff
      split
      next roomHere =>
        rw [Bool.and_eq_true, Bool.not_eq_true', decide_eq_false_iff_not, decide_eq_true_eq]
          at roomHere
        have length_eq := nodeLinks.length_eq
        rw [List.length_append] at length_eq
        rcases nodeLinks.insert_yields nonempty (by omega) (Nat.le_of_not_lt roomHere.1) with
          ⟨wider, inserts, widerLinks⟩
        rw [Ends.lift_bind inserts]
        apply widen_ends supports index_eq path nonempty links_eq widerLinks _
          (Step.takes_of_linksTo linksTo nonempty taken_eq link)
        · rw [crowded_iff]
          omega
        · rw [List.length_append, List.length_cons]
          omega
      next full =>
        rw [Bool.and_eq_true, Bool.not_eq_true', decide_eq_false_iff_not, decide_eq_true_eq]
          at full
        have crowded := crowded_iff.mpr (by omega)
        have several := Nat.le_of_succ_le holding.held.tree.config.three_le_maxEntries
        rcases crowded.exists_part linksTo nonempty taken_eq nodeLinks several smallHere with
          ⟨midpoint, half, lower, upper, found, halves, lowerSeveral, upperSeveral, promotes, sides,
            splits, parted⟩
        rw [Ends.lift_bind found, Ends.lift_bind halves, Ends.lift_bind splits]
        have upperNonempty : upper ≠ [] := List.length_pos_iff.mp (by omega)
        rw [← parted.separator_eq] at promotes
        apply divide_ends supports index_eq holds nonempty links_eq parted lowerSeveral upperSeveral
          crowded promotes
        intro sibling middle config_eq supportsAbove
        rw [parted.separator_eq]
        apply ih ⟨left.map Group.link, group.low, rfl⟩ (Group.link ⟨sibling, upper⟩) supportsAbove
        · exact small_of_parted smallHere smallAbove parted.links_eq upperNonempty
        · rw [config_eq]
          exact roomy

end Transaction

end PagedMap
