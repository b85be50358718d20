import PagedMap.Proofs.Tree.Calls

/-!
# Committing a transaction

A commit writes the anchor with the next commit number and ends the transaction. The tree has what
the transaction wrote. If the commit fails, the transaction is undone.
-/

namespace PagedMap

open PageList (fetch)
open HoldingM (within)

section

variable {limit : Nat} {pages later : List Page} {tree : Tree} {outline : Outline}
  {contents : Contents} {anchor : Anchor}

/-- Where at most the anchor page changes, all other pages of a tree are as they were. -/
theorem Keeps.kept_of_kind (keeps : Keeps limit pages tree outline contents)
    (kept : ∀ index page, index ≠ tree.anchorIndex → fetch pages index = some page →
      fetch later index = some page)
    {index : PageIndex} {page : Page} {kind : Kind} (fetched : fetch pages index = some page)
    (isKind : page.kind? = some kind) (notAnchor : kind ≠ .anchor) :
    fetch later index = some page :=
  kept index page (ne_of_kind fetched isKind keeps.anchored tree.anchor.kind?_toPage notAnchor)
    fetched

theorem Keeps.overflows_kept (keeps : Keeps limit pages tree outline contents)
    (kept : ∀ index page, index ≠ tree.anchorIndex → fetch pages index = some page →
      fetch later index = some page) : Value.KeepsOverflows pages later :=
  fun _ overflow fetched => keeps.kept_of_kind kept fetched overflow.kind?_toPage (by decide)

theorem Keeps.scaffold_kept (keeps : Keeps limit pages tree outline contents)
    (kept : ∀ index page, index ≠ tree.anchorIndex → fetch pages index = some page →
      fetch later index = some page) :
    Scaffold limit later (outline.sheets.map Sheet.link) outline.levels tree.anchor.root := by
  apply keeps.scaffold.keep
  intro group member page fetched
  exact kept _ page (Transaction.ne_anchor (keeps.scaffold.stored group member) keeps.anchored)
    fetched

/-- Only the anchor page is read for the anchor, so another anchor with the same root and sentinel
retains the tree. -/
theorem Keeps.retains_anchor (keeps : Keeps limit pages tree outline contents)
    (kept : ∀ index page, index ≠ tree.anchorIndex → fetch pages index = some page →
      fetch later index = some page)
    (root_eq : anchor.root = tree.anchor.root)
    (sentinel_eq : anchor.sentinel = tree.anchor.sentinel) :
    Retains limit later anchor outline contents := by
  refine ⟨?_, ?_, ?_, keeps.means.keep (keeps.overflows_kept kept)⟩
  · rw [sentinel_eq]
    exact keeps.kept_of_kind kept keeps.ended (Leaf.kind?_toPage _) (by decide)
  · rw [sentinel_eq]
    refine { keeps.shelf with stored := ?_ }
    intro sheet member
    rcases keeps.shelf.stored sheet member with ⟨leaf, fetched, next_eq, holds⟩
    exact ⟨leaf, keeps.kept_of_kind kept fetched leaf.kind?_toPage (by decide), next_eq, holds⟩
  · rw [root_eq]
    exact (keeps.scaffold_kept kept).trellis

/-- An anchor that names the same root and the same sentinel may take the place of the anchor. -/
theorem Keeps.withAnchor (keeps : Keeps limit pages tree outline contents)
    (kept : ∀ index page, index ≠ tree.anchorIndex → fetch pages index = some page →
      fetch later index = some page)
    (anchored : fetch later tree.anchorIndex = some anchor.toPage)
    (root_eq : anchor.root = tree.anchor.root)
    (sentinel_eq : anchor.sentinel = tree.anchor.sentinel) :
    Keeps limit later { tree with anchor } outline contents := by
  have retains := keeps.retains_anchor kept root_eq sentinel_eq
  refine ⟨anchored, retains.ended, retains.shelf, ?_, retains.means⟩
  rw [root_eq]
  exact keeps.scaffold_kept kept

end

namespace Transaction

variable {σ : Type} [Pager σ] [AtomicPager σ] {base : List Page} {limit : Nat}
  {outline : Outline} {contents : Contents} {holding : Holding Transaction σ}

theorem nextSequence_eq {sequence : UInt64} (room : sequence.toNat + 1 < Word.limit) :
    nextSequence sequence = .ok (UInt64.ofNat (sequence.toNat + 1)) := by
  simp only [nextSequence]
  rw [bind_of_eq_ok (Word.add_eq_ok room)]
  rfl

theorem nextSequence_last {sequence : UInt64} (last : ¬ sequence.toNat + 1 < Word.limit) :
    nextSequence sequence = .error .range := by
  simp only [nextSequence, Word.add]
  rw [if_neg last]
  rfl

/-- Why a commit fails: the pager does, or there are no more commit numbers. -/
def Exhausted (before : Holding Transaction σ) (failure : Failure TreeError)
    (after : Holding Transaction σ) : Prop :=
  (∃ cause, failure = .error (.pager cause)) ∧
      (before.session.Calm → Word.signedLimit ≤ after.session.pages.length) ∨
    failure = .fault .range ∧ Word.limit ≤ before.held.tree.anchor.sequence.toNat + 1

/-- If at most the anchor page was overwritten, by an anchor with the same root, the contents
survive. -/
theorem Maintains.survives_anchored {after : Holding Transaction σ} {stored : Anchor}
    (maintains : Maintains base limit outline contents holding)
    (advances : Advances (· = holding.held.tree.anchorIndex) holding after)
    (undoable : Undoable base after.held after.session.pages)
    (fetched : fetch after.session.pages holding.held.tree.anchorIndex = some stored.toPage)
    (same : ∀ anchor, anchor = stored ∨ anchor = after.held.tree.anchor →
      anchor.root = holding.held.tree.anchor.root ∧
        anchor.sentinel = holding.held.tree.anchor.sentinel) :
    Survives base limit outline contents holding after := by
  have keeps := maintains.keeps
  have kept : ∀ index page, index ≠ holding.held.tree.anchorIndex →
      fetch holding.session.pages index = some page → fetch after.session.pages index = some page :=
    fun index page => advances.kept index page
  have bears : ∀ anchor, anchor = stored ∨ anchor = after.held.tree.anchor →
      Bears limit outline contents holding after anchor := by
    intro anchor either
    rcases same anchor either with ⟨root_eq, sentinel_eq⟩
    refine ⟨sentinel_eq, outline, keeps.retains_anchor kept root_eq sentinel_eq, ?_⟩
    intro role index belongs
    rw [sentinel_eq] at belongs
    have belongsBefore := belongs.of_keep keeps.means (keeps.overflows_kept kept)
    rcases keeps.retains.exists_fetch belongsBefore with ⟨page, fetchedBefore⟩
    exact ⟨advances.ne_copy fetchedBefore (maintains.own role index belongsBefore),
      Or.inl belongsBefore⟩
  refine ⟨undoable, advances.mono fun _ _ _ => Or.inl, ?_, ⟨stored, ?_, bears _ (Or.inl rfl)⟩,
    bears _ (Or.inr rfl)⟩
  · rw [advances.anchorIndex_eq]
    exact advances.ne_copy keeps.anchored maintains.anchorOwn
  · rw [advances.anchorIndex_eq]
    exact fetched

/-- When the anchor page has been copied, an anchor with the same root is put in its place. -/
theorem renewAnchor_ends (maintains : Maintains base limit outline contents holding)
    {first : Holding Transaction σ} (shadowed : Advances (fun _ => False) holding first)
    (copies : Adds (fun _ => False) holding first)
    (undoable : Undoable base first.held first.session.pages)
    (tree_eq : first.held.tree = holding.held.tree)
    (safe : fetch base first.held.tree.anchorIndex = none ∨
      first.held.shadows.covers first.held.tree.anchorIndex = true) (anchor : Anchor)
    (root_eq : anchor.root = holding.held.tree.anchor.root)
    (sentinel_eq : anchor.sentinel = holding.held.tree.anchor.sentinel) :
    Ends ((do
        writeAnchor
        within TreeM.sync : TransactionM σ Unit) (anchoredAt anchor first))
      (fun _ after => Survives base limit outline contents holding after ∧
        Keeps limit after.session.pages after.held.tree outline contents ∧
        IncludesOthers holding.held.tree.anchorIndex holding.session.pages after.session.pages ∧
        after.held.tree.anchor = anchor ∧ Adds (fun _ => False) holding after)
      (fun failure after => Survives base limit outline contents holding after ∧
        (∃ cause, failure = .error (.pager cause)) ∧
        (holding.session.Calm → Word.signedLimit ≤ after.session.pages.length)) := by
  have maintainsFirst := maintains.advanced shadowed undoable tree_eq
  apply Ends.bind (Ends.mono (writeAnchor_ends undoable maintainsFirst.keeps.anchored
    maintainsFirst.anchorOwn safe anchor) (fun _ _ => id) ?_)
  · rintro _ second ⟨written, undoableSecond, secondTree_eq, stored, none⟩
    rw [tree_eq] at written stored secondTree_eq
    have earlier : Advances (· = holding.held.tree.anchorIndex) holding second :=
      shadowed.untouched_then written
    have keeps := maintains.keeps.withAnchor (fun index page => earlier.kept index page) stored
      root_eq sentinel_eq
    -- If the sync fails, the new anchor is written, and it leads where the old one led.
    have settled : ∀ last, Advances (fun _ => False) second last →
        Undoable base last.held last.session.pages → last.held.tree = second.held.tree →
        Survives base limit outline contents holding last := by
      intro last untouched undoableLast lastTree_eq
      have advances : Advances (· = holding.held.tree.anchorIndex) holding last :=
        earlier.then_untouched untouched
      refine maintains.survives_anchored advances undoableLast (untouched.kept _ _ id stored) ?_
      intro other either
      have same : other = anchor := either.elim id fun isHeld =>
        isHeld.trans (congrArg Tree.anchor (lastTree_eq.trans secondTree_eq))
      rw [same]
      exact ⟨root_eq, sentinel_eq⟩
    apply Ends.mono (consult_ends undoableSecond (TreeM.sync_consults second.session.pages))
    · rintro _ _ ⟨_, session, rfl, still, _⟩
      refine ⟨settled _ (Advances.of_still still) ?_ rfl, ?_, ?_,
        congrArg Tree.anchor secondTree_eq, ?_⟩
      · exact undoableSecond.grow still.longer.length_le (includes_of_longer still.longer)
      · change Keeps limit session.pages second.held.tree outline contents
        rw [secondTree_eq, still.pages_eq]
        exact keeps
      · change IncludesOthers _ _ session.pages
        rw [still.pages_eq]
        exact fun index page => earlier.kept index page
      · have adds := copies.then_none none written
        intro index page missing fetched
        change fetch session.pages index = _ at fetched
        rw [still.pages_eq] at fetched
        exact adds index page missing fetched
    · intro failure after halted
      exact ⟨settled after halted.untouched halted.undoable halted.tree_eq, halted.byPager,
        fun calm => halted.full (earlier.calm calm)⟩
  · intro failure after halted
    -- The anchor in memory is the new one already, and the anchor page still holds the old one.
    have untouched := halted.untouched.of_anchoredAt
    have both : Advances (fun _ => False) holding after :=
      shadowed.then_untouched untouched
    refine ⟨?_, halted.byPager, fun calm => halted.full (shadowed.calm calm)⟩
    refine maintains.survives_anchored both.of_untouched halted.undoable
      (both.kept _ _ id maintains.keeps.anchored) ?_
    rintro other (rfl | rfl)
    · exact ⟨rfl, rfl⟩
    · rw [halted.tree_eq]
      exact ⟨root_eq, sentinel_eq⟩

/-- Making a transaction durable keeps the tree, and counts the commit. The contents survive in any
case. -/
theorem makeDurable_ends (maintains : Maintains base limit outline contents holding) :
    Ends (makeDurable holding)
      (fun _ after => Survives base limit outline contents holding after ∧
        Keeps limit after.session.pages after.held.tree outline contents ∧
        IncludesOthers holding.held.tree.anchorIndex holding.session.pages after.session.pages ∧
        after.held.tree.anchor.sequence.toNat = holding.held.tree.anchor.sequence.toNat + 1 ∧
        Adds (fun _ => False) holding after)
      (fun failure after => Survives base limit outline contents holding after ∧
        Exhausted holding failure after) := by
  simp only [makeDurable]
  rw [HoldingM.held_bind]
  apply Ends.bind (Ends.mono (shadow_ends maintains.undoable maintains.keeps.anchored)
    (fun _ _ => id) fun failure after halted =>
      ⟨maintains.survives halted, Or.inl ⟨halted.byPager, halted.full⟩⟩)
  rintro _ first ⟨shadowed, undoable, tree_eq, safe, copies⟩
  by_cases room : holding.held.tree.anchor.sequence.toNat + 1 < Word.limit
  · rw [Ends.lift_bind (nextSequence_eq room), setAnchor_bind]
    rw [← tree_eq] at safe
    apply Ends.mono (renewAnchor_ends maintains shadowed copies undoable tree_eq safe
      { holding.held.tree.anchor with
        sequence := UInt64.ofNat (holding.held.tree.anchor.sequence.toNat + 1) } rfl rfl)
    · rintro _ after ⟨survives, keeps, others, anchor_eq, adds⟩
      refine ⟨survives, keeps, others, ?_, adds⟩
      rw [anchor_eq]
      exact UInt64.toNat_ofNat_of_lt room
    · rintro failure after ⟨survives, byPager, full⟩
      exact ⟨survives, Or.inl ⟨byPager, full⟩⟩
  · rw [nextSequence_last (by exact room)]
    exact ⟨(maintains.continues shadowed undoable tree_eq).survives,
      Or.inr ⟨rfl, Nat.le_of_not_lt room⟩⟩

/-- What a commit leaves behind. -/
structure Committed (limit : Nat) (outline : Outline) (contents : Contents)
    (before after : Holding Transaction σ) : Prop where
  keeps : Keeps limit after.session.pages after.held.tree outline contents
  others : IncludesOthers before.held.tree.anchorIndex before.session.pages after.session.pages
  phase_eq : after.held.phase = .committed
  sequence_eq : after.held.tree.anchor.sequence.toNat =
    before.held.tree.anchor.sequence.toNat + 1
  sentinel_eq : after.held.tree.anchor.sentinel = before.held.tree.anchor.sentinel
  anchorIndex_eq : after.held.tree.anchorIndex = before.held.tree.anchorIndex
  config_eq : after.held.tree.config = before.held.tree.config
  longer : before.session.pages.length ≤ after.session.pages.length
  calm : before.session.Calm → after.session.Calm
  copies : ∀ shadow ∈ after.held.shadows,
    shadow ∈ before.held.shadows ∨ fetch before.session.pages shadow.copy = none
  shadowed : ∀ shadow ∈ before.held.shadows, shadow ∈ after.held.shadows
  copied : ∀ shadow ∈ after.held.shadows, ∃ page, fetch after.session.pages shadow.copy = some page
  adds : Adds (fun _ => False) before after

/-- A commit keeps the tree and ends the transaction. If it fails, all is undone. -/
theorem commit_ends (maintains : Maintains base limit outline contents holding)
    (active : holding.held.phase = .active) :
    Ends (commit holding) (fun _ after => Committed limit outline contents holding after)
      (fun failure after => ∃ middle, makeDurable holding = .error failure middle ∧
        GivenUp base holding middle after ∧ Exhausted holding failure middle) := by
  simp only [commit]
  rw [requireActive_bind active]
  have durable := (makeDurable_ends maintains).and (Ends.self makeDurable holding)
  apply Ends.bind
  · apply Ends.tryCatch (durable.mono (fun _ _ => And.left) fun _ _ => id)
    rintro (error | fault) middle ⟨⟨survives, exhausted⟩, fails⟩
    · have aborts := abort_ends survives.undoable
      apply Ends.bind (Ends.mono aborts (fun _ _ => id) fun _ _ => False.elim)
      intro _ after aborted
      exact ⟨middle, fails, survives.givenUp aborted, exhausted⟩
    · have drops := drop_ends survives.undoable (survives.advances.phase_eq.trans active)
      apply Ends.bind (Ends.mono drops (fun _ _ => id) fun _ _ => False.elim)
      intro _ after aborted
      exact ⟨middle, fails, survives.givenUp aborted, exhausted⟩
  · rintro _ ⟨transaction, session⟩ ⟨survives, keeps, others, sequence_eq, adds⟩
    have advances := survives.advances
    have copied : ∀ shadow ∈ transaction.shadows,
        ∃ page, fetch session.pages shadow.copy = some page := by
      intro shadow member
      rcases survives.undoable.copied shadow member with ⟨page, _, copied⟩
      exact ⟨page, copied⟩
    exact ⟨keeps, others, rfl, sequence_eq, survives.held.sentinel_eq, advances.anchorIndex_eq,
      advances.config_eq, advances.longer, advances.calm, advances.copies, advances.shadowed,
      copied, adds⟩

end Transaction

end PagedMap
