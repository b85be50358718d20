import PagedMap.Proofs.Tree.Guarding

/-!
# Trees spare the pages beside them

A tree that was made beside other pages leaves them alone. All of its own pages were appended later,
and a change appends more of them and overwrites no others. So the pages from before the tree are
never reached from its root and never change, whatever transactions there are, however these end and
at every point on the way.
-/

namespace PagedMap

open PageList (fetch)

/-- A tree spares pages from before it: they are as they were, apart from the page of its anchor,
and none of them is reached from its root. -/
structure Spares (base : List Page) (index : PageIndex) (anchor : Anchor) (pages : List Page) :
    Prop where
  others : IncludesOthers index base pages
  unreached : ∀ role target, Reached pages anchor role target →
    target ≠ index ∧ fetch base target = none

/-- The pages of an outline, the anchor page apart, were appended to others, which are as they
were. -/
structure Secludes (base pages : List Page) (tree : Tree) (outline : Outline) : Prop where
  others : IncludesOthers tree.anchorIndex base pages
  beyond : ∀ role index, Belongs pages tree.anchor.sentinel outline role index →
    fetch base index = none

section

variable {base pages later : List Page} {limit : Nat} {tree after : Tree} {anchor : Anchor}
  {outline : Outline} {contents : Contents} {role : Role} {index target : PageIndex}

/-- What belongs to a tree is not the page of any anchor. -/
theorem Retains.ne_anchor {other : Anchor} (retains : Retains limit pages anchor outline contents)
    (anchored : fetch pages index = some other.toPage)
    (belongs : Belongs pages anchor.sentinel outline role target) : target ≠ index := by
  rintro rfl
  rcases retains.exists_view belongs with ⟨page, view, fetched, viewed, fits⟩
  rw [anchored] at fetched
  injection fetched with same
  simp only [← same, Page.view, Anchor.kind?_toPage] at viewed
  injection viewed with same
  rw [← same] at fits
  cases fits

namespace Secludes

/-- A tree stays apart from the pages before it when only its anchor page changes. -/
theorem keep (secludes : Secludes base pages tree outline)
    (keeps : Keeps limit pages tree outline contents)
    (others : IncludesOthers tree.anchorIndex pages later)
    (anchorIndex_eq : after.anchorIndex = tree.anchorIndex)
    (sentinel_eq : after.anchor.sentinel = tree.anchor.sentinel) :
    Secludes base later after outline where
  others := by
    rw [anchorIndex_eq]
    exact secludes.others.trans others
  beyond := by
    intro role index belongs
    rw [sentinel_eq] at belongs
    exact secludes.beyond role index (belongs.of_keep keeps.means (keeps.overflows_kept others))

theorem spares (secludes : Secludes base pages tree outline)
    (keeps : Keeps limit pages tree outline contents) :
    Spares base tree.anchorIndex tree.anchor pages where
  others := secludes.others
  unreached := by
    intro role target reached
    have belongs := keeps.retains.belongs_of_reached reached
    exact ⟨keeps.retains.ne_anchor keeps.anchored belongs, secludes.beyond role target belongs⟩

theorem missing (secludes : Secludes base pages tree outline)
    (anchored : fetch pages tree.anchorIndex = some anchor.toPage)
    (absent : fetch pages index = none) : fetch base index = none := by
  cases found : fetch base index with
  | none => rfl
  | some page =>
      have different := PageList.ne_of_fetch anchored absent
      rw [secludes.others index page different.symm found] at absent
      contradiction

theorem unexposed {page : Page} (secludes : Secludes base pages tree outline)
    (different : index ≠ tree.anchorIndex) (fetched : fetch base index = some page) :
    ¬ outline.Exposes tree.anchorIndex index := by
  have apart : ∀ {other role}, Belongs pages tree.anchor.sentinel outline role other →
      index ≠ other := fun belongs =>
    PageList.ne_of_fetch fetched (secludes.beyond _ _ belongs)
  rintro (isAnchor | ⟨group, member, isNode⟩ | ⟨sheet, member, isLeaf⟩)
  · exact different isAnchor
  · exact apart (.node member) isNode
  · exact apart (.leaf member) isLeaf

end Secludes

end

/-! ## Transactions -/

section

variable {σ : Type} [Pager σ] [AtomicPager σ] {base start : List Page} {limit : Nat}
  {outline : Outline} {contents now : Contents} {holding before after : Holding Transaction σ}
  {index : PageIndex} {anchor : Anchor}

namespace Secludes

theorem advanced
    (secludes : Secludes base before.session.pages before.held.tree outline)
    (advances : Transaction.Advances (outline.Exposes before.held.tree.anchorIndex) before after) :
    IncludesOthers before.held.tree.anchorIndex base after.session.pages :=
  fun other page different fetched =>
    advances.kept other page (secludes.unexposed different fetched)
      (secludes.others other page different fetched)

theorem inherited (secludes : Secludes base before.session.pages before.held.tree outline)
    (keeps : Keeps limit before.session.pages before.held.tree outline contents)
    {role : Role} (inherits : Transaction.Inherits outline before role index) :
    fetch base index = none := by
  rcases inherits with belongs | absent
  · exact secludes.beyond role index belongs
  · exact secludes.missing keeps.anchored absent

/-- When a transaction goes on, its tree still stands beside the pages from before. -/
theorem continues (secludes : Secludes base before.session.pages before.held.tree outline)
    (maintains : Transaction.Maintains start limit outline contents before)
    (continues : Transaction.Continues start limit outline now before after) :
    ∃ later, Transaction.Maintains start limit later now after ∧
      Secludes base after.session.pages after.held.tree later := by
  rcases continues.maintains with ⟨later, maintainsAfter, inherits⟩
  refine ⟨later, maintainsAfter, ?_, ?_⟩
  · rw [continues.advances.anchorIndex_eq]
    exact secludes.advanced continues.advances
  · intro role index belongs
    exact secludes.inherited maintains.keeps (inherits role index belongs)

end Secludes

/-- In the middle of a change a tree spares the pages from before it, be it the tree in memory or
the one that is stored. -/
def SparesBoth (base : List Page) (index : PageIndex) (holding : Holding Transaction σ) : Prop :=
  ∀ anchor : Anchor, anchor = holding.held.tree.anchor ∨
      fetch holding.session.pages index = some anchor.toPage →
    Spares base index anchor holding.session.pages

/-- A tree that has been changed is apart from the pages before it as well. -/
theorem Secludes.survives
    (secludes : Secludes base before.session.pages before.held.tree outline)
    (maintains : Transaction.Maintains start limit outline contents before)
    (survives : Transaction.Survives start limit outline now before after) :
    SparesBoth base before.held.tree.anchorIndex after := by
  rcases survives.stored with ⟨stored, anchored, storedBears⟩
  rw [survives.advances.anchorIndex_eq] at anchored
  have spares : ∀ anchor, Transaction.Bears limit outline now before after anchor →
      Spares base before.held.tree.anchorIndex anchor after.session.pages := by
    intro anchor bears
    refine ⟨secludes.advanced survives.advances, ?_⟩
    intro role target reached
    rcases bears.retains with ⟨later, retains, owned⟩
    have belongs := retains.belongs_of_reached reached
    exact ⟨retains.ne_anchor anchored belongs,
      secludes.inherited maintains.keeps (owned role target belongs).2⟩
  rintro anchor (rfl | fetched)
  · exact spares _ survives.held
  · rw [anchored] at fetched
    injection fetched with same
    rw [← Anchor.toPage_inj same]
    exact spares _ storedBears

/-- At every point of what happens in a transaction, the tree spares the pages from before it. They
are as they were also while all this is undone. -/
structure Work.Spared (base : List Page) (index : PageIndex) (holding : Holding Transaction σ)
    (work : Work) : Prop where
  last : SparesBoth base index (lastState (work.perform holding))
  points : ∀ calls, SparesBoth base index (stopAfter calls work.perform holding)
  undone : ∀ calls, IncludesOthers index base
    (stopAfter calls Transaction.undo (lastState (work.perform holding))).session.pages

/-- While a transaction is undone, what holds what it held before the transaction goes on to do
so. -/
theorem undo_others (undoable : Undoable start holding.held holding.session.pages)
    (othersBefore : IncludesOthers index base start)
    (others : IncludesOthers index base holding.session.pages) (calls : Nat) :
    IncludesOthers index base (stopAfter calls Transaction.undo holding).session.pages := by
  have undoableServing : Undoable start (holding.serving calls).held
      (holding.serving calls).session.pages := undoable
  have undoes := Transaction.undo_ends undoableServing
  have undone := lastState_of_ends (undoes.mono (fun _ _ => id) fun _ _ => And.left)
  intro other page different fetched
  exact undone.kept other page (othersBefore other page different fetched)
    (others other page different fetched)

/-- A transaction is under way on a tree that stands beside pages from before it. -/
structure Transaction.Beside (base : List Page) (index : PageIndex) (start : List Page)
    (holding : Holding Transaction σ) : Prop where
  maintains : ∃ outline contents, Maintains start 255 outline contents holding ∧
    Secludes base holding.session.pages holding.held.tree outline
  active : holding.held.phase = .active
  anchorIndex_eq : holding.held.tree.anchorIndex = index
  others : IncludesOthers index base start

namespace Transaction.Beside

theorem call (beside : Beside base index start holding) (call : Call) :
    Beside base index start (call.leaves holding) ∨ (call.leaves holding).held.phase ≠ .active := by
  rcases beside.maintains with ⟨outline, contents, maintains, secludes⟩
  rcases maintains.leaves beside.active call with ⟨now, continues⟩ | ended
  · left
    rcases secludes.continues maintains continues with ⟨later, maintainsAfter, secludesAfter⟩
    exact ⟨⟨later, now, maintainsAfter, secludesAfter⟩,
      continues.advances.phase_eq.trans beside.active,
      continues.advances.anchorIndex_eq.trans beside.anchorIndex_eq, beside.others⟩
  · exact Or.inr ended

/-- Whatever work a transaction does, at no point has it overwritten a page from before the tree. -/
theorem spared (beside : Beside base index start holding) (work : Work) :
    work.Spared base index holding := by
  rcases beside with ⟨⟨outline, contents, maintains, secludes⟩, active, rfl, others⟩
  have roomy := holding.held.tree.config.maxEntries_le
  have works := maintains.work_ends active (Nat.le_refl _) roomy work
  rcases lastState_of_ends works with ⟨now, survives⟩
  have last := secludes.survives maintains survives
  refine ⟨last, ?_, ?_⟩
  · intro calls
    have serving := maintains.serving calls
    rcases lastState_of_ends (serving.work_ends active (Nat.le_refl _) roomy work) with
      ⟨_, survivesPoint⟩
    have secludesServing : Secludes base (holding.serving calls).session.pages
        (holding.serving calls).held.tree outline := secludes
    exact secludesServing.survives serving survivesPoint
  · exact undo_others survives.undoable others (last _ (Or.inl rfl)).others

end Transaction.Beside

end

/-! ## What becomes of a tree -/

section

variable {σ : Type} [Pager σ] [AtomicPager σ]

/-- What a tree in a session may become: it is opened again, asked and changed by transactions, and
its pages are taken to other sessions. Any call of the pager may fail on the way, but if a
transaction gives up, its copies are written back. -/
inductive Becomes (session : Session σ) (tree : Tree) : Session σ → Tree → Prop where
  | same : Becomes session tree session tree
  | reopened {config : Config} {later last : Tree} {middle after : Session σ}
      (becomes : Becomes session tree middle later)
      (opens : Tree.openOrCreate later.anchorIndex config middle = .ok last after) :
      Becomes session tree after last
  | moved {later : Tree} {middle after : Session σ} (becomes : Becomes session tree middle later)
      (same : after.pages = middle.pages) : Becomes session tree after later
  | asked {later : Tree} {middle : Session σ} (becomes : Becomes session tree middle later)
      (question : Question) : Becomes session tree (question.leaves later middle) later
  | committed {later : Tree} {middle opened : Session σ} {begun : Transaction}
      {calls : List Call} {after : Holding Transaction σ}
      (becomes : Becomes session tree middle later)
      (starts : Transaction.start later middle = .ok begun opened)
      (commits : Transaction.commit (Call.leaveAll calls ⟨begun, opened⟩) = .ok () after) :
      Becomes session tree after.session after.held.tree
  | gaveUp {later : Tree} {middle opened : Session σ} {begun : Transaction}
      {calls more : List Call} {halfway after : Holding Transaction σ}
      (becomes : Becomes session tree middle later)
      (starts : Transaction.start later middle = .ok begun opened)
      (active : (Call.leaveAll calls ⟨begun, opened⟩).held.phase = .active)
      (givesUp : GivesUp (Call.leaveAll calls ⟨begun, opened⟩) halfway after)
      (copies : Transaction.CopiesBack halfway) :
      Becomes session tree (Call.leaveAll more after).session (Call.leaveAll more after).held.tree

/-- A tree stands beside pages from before it. -/
structure Tree.Beside (base : List Page) (index : PageIndex) (tree : Tree) (pages : List Page) :
    Prop where
  keeps : ∃ outline contents, Keeps 255 pages tree outline contents ∧
    Secludes base pages tree outline
  anchorIndex_eq : tree.anchorIndex = index

namespace Tree.Beside

variable {base pages later : List Page} {index : PageIndex} {tree : Tree} {config : Config}
  {session opened : Session σ} {begun : Transaction} {calls : List Call}

theorem spares (beside : tree.Beside base index pages) : Spares base index tree.anchor pages := by
  rcases beside with ⟨⟨outline, contents, keeps, secludes⟩, rfl⟩
  exact secludes.spares keeps

theorem keep (beside : tree.Beside base index pages) (includes : Includes pages later) :
    tree.Beside base index later := by
  rcases beside.keeps with ⟨outline, contents, keeps, secludes⟩
  exact ⟨⟨outline, contents, keeps.keep includes, secludes.keep keeps includes.others rfl rfl⟩,
    beside.anchorIndex_eq⟩

theorem reopened {last : Tree} {after : Session σ} (beside : tree.Beside base index session.pages)
    (opens : Tree.openOrCreate tree.anchorIndex config session = .ok last after) :
    last.Beside base index after.pages := by
  rcases beside.keeps with ⟨outline, contents, keeps, secludes⟩
  rcases (keeps.openOrCreate_consults config session rfl).of_ok opens with ⟨rfl, still⟩
  rw [still.pages_eq]
  exact ⟨⟨outline, contents, { keeps with }, { secludes with }⟩, beside.anchorIndex_eq⟩

theorem asked (beside : tree.Beside base index session.pages) (question : Question) :
    tree.Beside base index (question.leaves tree session).pages := by
  rcases beside.keeps with ⟨outline, contents, keeps, _⟩
  rw [(keeps.asked question).pages_eq]
  exact beside

theorem start (beside : tree.Beside base index session.pages)
    (starts : Transaction.start tree session = .ok begun opened) :
    Transaction.Beside base index session.pages ⟨begun, opened⟩ := by
  rcases beside with ⟨⟨outline, contents, keeps, secludes⟩, rfl⟩
  rcases (Transaction.start_ends tree session).of_ok starts with ⟨rfl, still, room⟩
  have maintains := (Transaction.Maintains.of_keeps keeps room).of_still still
  refine ⟨⟨outline, contents, maintains, ?_⟩, rfl, rfl, secludes.others⟩
  change Secludes base opened.pages tree outline
  rw [still.pages_eq]
  exact secludes

theorem underWay (beside : tree.Beside base index session.pages)
    (starts : Transaction.start tree session = .ok begun opened)
    (active : (Call.leaveAll calls ⟨begun, opened⟩).held.phase = .active) :
    Transaction.Beside base index session.pages (Call.leaveAll calls ⟨begun, opened⟩) :=
  calls_keep Transaction.Beside.call (beside.start starts) calls active

theorem committed {after : Holding Transaction σ} (beside : tree.Beside base index session.pages)
    (starts : Transaction.start tree session = .ok begun opened)
    (commits : Transaction.commit (Call.leaveAll calls ⟨begun, opened⟩) = .ok () after) :
    after.held.tree.Beside base index after.session.pages := by
  have active := active_of_commit commits
  have within := beside.underWay starts active
  rcases within.maintains with ⟨outline, contents, maintains, secludes⟩
  have committed := (Transaction.commit_ends maintains active).of_ok commits
  exact ⟨⟨outline, contents, committed.keeps, secludes.keep maintains.keeps committed.others
    committed.anchorIndex_eq committed.sentinel_eq⟩,
    committed.anchorIndex_eq.trans within.anchorIndex_eq⟩

/-- From one state to the next the tree stays beside the pages from before. -/
theorem becomes {last : Tree} {after : Session σ} (beside : tree.Beside base index session.pages)
    (becomes : Becomes session tree after last) : last.Beside base index after.pages := by
  induction becomes with
  | same => exact beside
  | reopened _ opens ih => exact ih.reopened opens
  | moved _ same ih =>
      rw [same]
      exact ih
  | asked _ question ih => exact ih.asked question
  | committed _ starts commits ih => exact ih.committed starts commits
  | @gaveUp later middle opened begun calls more halfway after _ starts active givesUp copies ih =>
      rcases ih.keeps with ⟨_, _, keeps, _⟩
      rcases ((keeps.stands starts).calls calls active).restored givesUp copies with
        ⟨includes, tree_eq, ended⟩
      have extended := calls_ended ended more
      rw [extended.tree_eq, tree_eq]
      exact (ih.keep includes).keep (includes_of_longer extended.longer)

end Tree.Beside

/-- Whatever becomes of a tree, it spares the pages from before it, between transactions and at
every point of one. -/
structure AlwaysSpares (base : List Page) (index : PageIndex) (session : Session σ) (tree : Tree) :
    Prop where
  between : ∀ later after, Becomes session tree after later →
    Spares base index later.anchor after.pages
  within : ∀ later after, Becomes session tree after later → ∀ begun opened,
    Transaction.start later after = .ok begun opened → ∀ calls,
      (Call.leaveAll calls ⟨begun, opened⟩).held.phase = .active → ∀ work : Work,
        work.Spared base index (Call.leaveAll calls ⟨begun, opened⟩)

theorem Tree.Beside.alwaysSpares {base : List Page} {index : PageIndex} {session : Session σ}
    {tree : Tree} (beside : tree.Beside base index session.pages) :
    AlwaysSpares base index session tree where
  between _ _ becomes := (beside.becomes becomes).spares
  within _ _ becomes _ _ starts _ active work :=
    ((beside.becomes becomes).underWay starts active).spared work

end

end PagedMap
