import PagedMap.Proofs.Tree.Propagating
import PagedMap.Proofs.Tree.Reaching

/-!
# Trees in transactions

While a transaction is under way, the pages keep a tree between two calls. In the middle of a call
they lead to contents from two roots: from the one that the anchor page names, and from the one that
the anchor in memory names. In both cases no page that is led to is a copy, and each is a page that
was led to before or one that was appended since.
-/

namespace PagedMap

open PageList (fetch)

/-- What a change of a tree may overwrite: its anchor, its nodes and its leaves. -/
def Outline.Exposes (outline : Outline) (anchorIndex index : PageIndex) : Prop :=
  index = anchorIndex ∨ (∃ group ∈ outline.levels.flatten, index = group.index) ∨
    ∃ sheet ∈ outline.sheets, index = sheet.index

namespace Transaction

variable {σ : Type} [Pager σ] [AtomicPager σ] {base : List Page} {limit : Nat}
  {outline : Outline} {contents : Contents} {holding before middle after : Holding Transaction σ}
  {failure : Failure TreeError} {role : Role} {index : PageIndex}

/-- In a transaction that can be undone, the pages keep the tree with some contents. None of these
pages is a copy. -/
structure Maintains (base : List Page) (limit : Nat) (outline : Outline) (contents : Contents)
    (holding : Holding Transaction σ) : Prop where
  undoable : Undoable base holding.held holding.session.pages
  keeps : Keeps limit holding.session.pages holding.held.tree outline contents
  anchorOwn : ∀ shadow ∈ holding.held.shadows, shadow.copy ≠ holding.held.tree.anchorIndex
  own : ∀ role index,
    Belongs holding.session.pages holding.held.tree.anchor.sentinel outline role index →
      ∀ shadow ∈ holding.held.shadows, shadow.copy ≠ index

/-- A page had the same place in an outline, or it was not there yet. -/
def Inherits (outline : Outline) (before : Holding Transaction σ) (role : Role)
    (index : PageIndex) : Prop :=
  Belongs before.session.pages before.held.tree.anchor.sentinel outline role index ∨
    fetch before.session.pages index = none

/-- From an anchor the pages lead to contents. The pages that have a place there are no copies, and
they are inherited. -/
structure Bears (limit : Nat) (outline : Outline) (contents : Contents)
    (before after : Holding Transaction σ) (anchor : Anchor) : Prop where
  sentinel_eq : anchor.sentinel = before.held.tree.anchor.sentinel
  retains : ∃ later, Retains limit after.session.pages anchor later contents ∧
    ∀ role index, Belongs after.session.pages anchor.sentinel later role index →
      (∀ shadow ∈ after.held.shadows, shadow.copy ≠ index) ∧ Inherits outline before role index

/-- Contents survive in the middle of what a transaction does: the anchor page leads to them, and so
does the anchor in memory. -/
structure Survives (base : List Page) (limit : Nat) (outline : Outline) (contents : Contents)
    (before after : Holding Transaction σ) : Prop where
  undoable : Undoable base after.held after.session.pages
  advances : Advances (outline.Exposes before.held.tree.anchorIndex) before after
  anchorOwn : ∀ shadow ∈ after.held.shadows, shadow.copy ≠ after.held.tree.anchorIndex
  stored : ∃ anchor : Anchor,
    fetch after.session.pages after.held.tree.anchorIndex = some anchor.toPage ∧
      Bears limit outline contents before after anchor
  held : Bears limit outline contents before after after.held.tree.anchor

/-- A transaction has gone on, and its tree now has some contents. -/
structure Continues (base : List Page) (limit : Nat) (outline : Outline) (contents : Contents)
    (before after : Holding Transaction σ) : Prop where
  maintains : ∃ later, Maintains base limit later contents after ∧
    ∀ role index, Belongs after.session.pages after.held.tree.anchor.sentinel later role index →
      Inherits outline before role index
  advances : Advances (outline.Exposes before.held.tree.anchorIndex) before after
  sentinel_eq : after.held.tree.anchor.sentinel = before.held.tree.anchor.sentinel
  sequence_eq : after.held.tree.anchor.sequence = before.held.tree.anchor.sequence

theorem Continues.survives (continues : Continues base limit outline contents before after) :
    Survives base limit outline contents before after := by
  rcases continues.maintains with ⟨later, maintains, inherits⟩
  have bears : Bears limit outline contents before after after.held.tree.anchor := by
    refine ⟨continues.sentinel_eq, later, maintains.keeps.retains, ?_⟩
    exact fun role index belongs =>
      ⟨maintains.own role index belongs, inherits role index belongs⟩
  exact ⟨maintains.undoable, continues.advances, maintains.anchorOwn,
    ⟨_, maintains.keeps.anchored, bears⟩, bears⟩

namespace Maintains

theorem node_own (maintains : Maintains base limit outline contents holding) :
    ∀ group ∈ outline.levels.flatten,
      ∀ shadow ∈ holding.held.shadows, shadow.copy ≠ group.index := fun _ member =>
  maintains.own _ _ (.node member)

theorem leaf_own (maintains : Maintains base limit outline contents holding) :
    ∀ sheet ∈ outline.sheets,
      ∀ shadow ∈ holding.held.shadows, shadow.copy ≠ sheet.index := fun _ member =>
  maintains.own _ _ (.leaf member)

/-! ## What changes no page -/

theorem belongs (maintains : Maintains base limit outline contents before)
    (advances : Advances (fun _ => False) before after)
    (belongs : Belongs after.session.pages before.held.tree.anchor.sentinel outline role index) :
    Belongs before.session.pages before.held.tree.anchor.sentinel outline role index := by
  apply belongs.of_keep maintains.keeps.means
  exact fun _ _ fetched => advances.kept _ _ id fetched

theorem own_after (maintains : Maintains base limit outline contents before)
    (advances : Advances (fun _ => False) before after)
    (belongs : Belongs after.session.pages before.held.tree.anchor.sentinel outline role index) :
    ∀ shadow ∈ after.held.shadows, shadow.copy ≠ index := by
  have belongsBefore := maintains.belongs advances belongs
  rcases maintains.keeps.retains.exists_fetch belongsBefore with ⟨page, fetched⟩
  exact advances.ne_copy fetched (maintains.own _ _ belongsBefore)

/-- What only appends pages and makes copies leaves the pages of the tree alone. -/
theorem advanced (maintains : Maintains base limit outline contents before)
    (advances : Advances (fun _ => False) before after)
    (undoable : Undoable base after.held after.session.pages)
    (tree_eq : after.held.tree = before.held.tree) :
    Maintains base limit outline contents after := by
  refine ⟨undoable, ?_, ?_, ?_⟩
  · rw [tree_eq]
    exact maintains.keeps.keep fun index page fetched => advances.kept index page id fetched
  · rw [tree_eq]
    exact advances.ne_copy maintains.keeps.anchored maintains.anchorOwn
  · intro role index belongs
    rw [tree_eq] at belongs
    exact maintains.own_after advances belongs

/-- A transaction that has touched none of the pages from before continues with the tree it had. -/
theorem continues (maintains : Maintains base limit outline contents before)
    (advances : Advances (fun _ => False) before after)
    (undoable : Undoable base after.held after.session.pages)
    (tree_eq : after.held.tree = before.held.tree) :
    Continues base limit outline contents before after := by
  refine ⟨⟨outline, maintains.advanced advances undoable tree_eq, ?_⟩,
    advances.of_untouched, ?_, ?_⟩
  · intro role index belongs
    rw [tree_eq] at belongs
    exact Or.inl (maintains.belongs advances belongs)
  · rw [tree_eq]
  · rw [tree_eq]

theorem continues_of_longer (maintains : Maintains base limit outline contents holding)
    {session : Session σ} (longer : holding.session.pages <+: session.pages)
    (calm : holding.session.Calm → session.Calm) :
    Continues base limit outline contents holding { holding with session } := by
  apply maintains.continues (Advances.of_longer longer calm) _ rfl
  exact maintains.undoable.grow longer.length_le (includes_of_longer longer)

theorem continues_of_still (maintains : Maintains base limit outline contents holding)
    {session : Session σ} (still : holding.session.Still session) :
    Continues base limit outline contents holding { holding with session } :=
  maintains.continues_of_longer still.longer still.calm

theorem of_still (maintains : Maintains base limit outline contents holding) {session : Session σ}
    (still : holding.session.Still session) :
    Maintains base limit outline contents { holding with session } := by
  apply maintains.advanced (Advances.of_still still) _ rfl
  exact maintains.undoable.grow still.longer.length_le (includes_of_longer still.longer)

theorem survives (maintains : Maintains base limit outline contents before)
    (halted : Halted base before failure after) :
    Survives base limit outline contents before after :=
  (maintains.continues halted.untouched halted.undoable halted.tree_eq).survives

end Maintains

end Transaction

end PagedMap
