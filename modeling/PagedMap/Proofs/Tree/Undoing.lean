import PagedMap.Proofs.Tree.Shadowing

/-!
# Undoing a transaction

Writing the copies back brings every page back that was there when the transaction began. Whatever
the transaction appended stays behind, but no page from before leads to it.
-/

namespace PagedMap

open PageList (fetch store)
open HoldingM (within)
open Session (Still Denied)

theorem exists_fetch_of_length_le {pages later : List Page} {index : PageIndex} {page : Page}
    (longer : pages.length ≤ later.length) (fetched : fetch pages index = some page) :
    ∃ other, fetch later index = some other := by
  cases found : fetch later index with
  | none =>
      rw [PageList.fetch_none_of_le longer found] at fetched
      contradiction
  | some other => exact ⟨other, rfl⟩

namespace Transaction

variable {σ : Type} [Pager σ] [AtomicPager σ] {base : List Page}

/-! ## Writing copies back -/

/-- A page was brought back. All other pages are what they were. -/
structure Restored (index : PageIndex) (page : Page) (before after : Session σ) : Prop where
  restored : fetch after.pages index = some page
  elsewhere : ∀ other, other ≠ index → fetch after.pages other = fetch before.pages other
  length_eq : after.pages.length = before.pages.length
  calm : before.Calm → after.Calm

theorem Restored.kept {index : PageIndex} {page : Page} {before after : Session σ}
    (back : Restored index page before after) (original : fetch base index = some page)
    {other : PageIndex} {otherPage : Page} (inBase : fetch base other = some otherPage)
    (fetched : fetch before.pages other = some otherPage) :
    fetch after.pages other = some otherPage := by
  by_cases same : other = index
  · rw [same] at inBase ⊢
    rw [back.restored, ← original, inBase]
  · exact (back.elsewhere other same).trans fetched

/-- One copy is written back, or the pager fails and no page changes. -/
theorem restore_ends {α : Type} {shadow : Shadow} {page : Page} {session : Session σ}
    {next : TreeM σ α} {post : α → Session σ → Prop}
    {broken : Failure TreeError → Session σ → Prop}
    (copy : fetch session.pages shadow.copy = some page)
    (present : ∃ current, fetch session.pages shadow.page = some current)
    (denies : ∀ failure after, session.Denied failure after → broken failure after)
    (goesOn : ∀ after, Restored shadow.page page session after → Ends (next after) post broken) :
    Ends ((do
        let page ← TreeM.readPage shadow.copy
        TreeM.writePage page shadow.page
        next : TreeM σ α) session) post broken := by
  rcases present with ⟨current, fetched⟩
  apply Ends.bind (Ends.mono (Consults.readPage copy session rfl) (fun _ _ => id) denies)
  rintro page first ⟨rfl, still⟩
  have firstFetched : fetch first.pages shadow.page = some current := by
    rw [still.pages_eq]
    exact fetched
  apply Ends.bind (Ends.mono (TreeM.writePage_ends firstFetched page) (fun _ _ => id)
    fun failure after denied => denies failure after (still.denied denied))
  rintro _ second ⟨stored, calm⟩
  apply goesOn second
  refine ⟨?_, ?_, ?_, fun before => calm (still.calm before)⟩
  · rw [stored]
    exact PageList.fetch_store_same firstFetched
  · intro other different
    rw [stored, PageList.fetch_store_of_ne firstFetched different.symm, still.pages_eq]
  · rw [stored, PageList.length_store, still.pages_eq]

/-- Writing copies back overwrites the pages that were copied with what they held, and no others.
Wherever it fails, a page that holds what it held goes on to do so. -/
theorem copyBack_ends {shadows : Shadows} {session : Session σ}
    (longer : base.length ≤ session.pages.length)
    (copied : ∀ shadow ∈ shadows,
      ∃ page, fetch base shadow.page = some page ∧ fetch session.pages shadow.copy = some page)
    (beyond : ∀ shadow ∈ shadows, fetch base shadow.copy = none) :
    Ends (copyBack shadows session)
      (fun _ after => (session.Calm → after.Calm) ∧
        after.pages.length = session.pages.length ∧
        (∀ index page, fetch session.pages index = some page →
          shadows.covers index = false → fetch after.pages index = some page) ∧
        ∀ index page, fetch base index = some page → shadows.covers index = true →
          fetch after.pages index = some page)
      (fun failure after => (∃ cause, failure = .error (.pager cause)) ∧ ¬ session.Calm ∧
        after.pages.length = session.pages.length ∧
        (∀ index page, fetch session.pages index = some page →
          shadows.covers index = false → fetch after.pages index = some page) ∧
        ∀ index page, fetch base index = some page → fetch session.pages index = some page →
          fetch after.pages index = some page) := by
  -- By induction on the copies. What one of them brings back is not lost by the others.
  induction shadows generalizing session with
  | nil =>
      refine ⟨id, rfl, fun _ _ fetched _ => fetched, ?_⟩
      intro index page _ covered
      contradiction
  | cons shadow rest ih =>
      rcases copied shadow List.mem_cons_self with ⟨page, original, copy⟩
      simp only [copyBack]
      apply restore_ends copy (exists_fetch_of_length_le longer original)
      · intro failure after denied
        rw [denied.still.pages_eq]
        exact ⟨denied.byPager, denied.stormy, rfl, fun _ _ fetched _ => fetched,
          fun _ _ _ => id⟩
      intro first back
      have uncovered : ∀ {index page}, fetch session.pages index = some page →
          Shadows.covers (shadow :: rest) index = false →
            fetch first.pages index = some page ∧ Shadows.covers rest index = false := by
        intro index otherPage fetched uncovered
        simp only [Shadows.covers, List.any_cons, Bool.or_eq_false_iff,
          decide_eq_false_iff_not] at uncovered
        have different : index ≠ shadow.page := fun same => uncovered.1 same.symm
        exact ⟨(back.elsewhere index different).trans fetched, uncovered.2⟩
      -- No copy is overwritten, since the copies lie beyond the pages from before.
      have copiedAfter : ∀ other ∈ rest, ∃ page, fetch base other.page = some page ∧
          fetch first.pages other.copy = some page := by
        intro other member
        rcases copied other (List.mem_cons_of_mem _ member) with ⟨otherPage, inBase, kept⟩
        have apart := PageList.ne_of_fetch original
          (beyond other (List.mem_cons_of_mem _ member))
        exact ⟨otherPage, inBase, (back.elsewhere _ apart.symm).trans kept⟩
      apply Ends.mono (ih (Nat.le_trans longer (Nat.le_of_eq back.length_eq.symm)) copiedAfter
        fun other member => beyond other (List.mem_cons_of_mem _ member))
      · rintro _ after ⟨calm, length_eq, kept, brought⟩
        refine ⟨fun before => calm (back.calm before), length_eq.trans back.length_eq, ?_, ?_⟩
        · intro index otherPage fetched isUncovered
          rcases uncovered fetched isUncovered with ⟨stillThere, inRest⟩
          exact kept index otherPage stillThere inRest
        · intro index otherPage inBase covered
          -- A further copy of the same page would only bring back the same.
          cases later : Shadows.covers rest index with
          | true => exact brought index otherPage inBase later
          | false =>
              simp only [Shadows.covers, List.any_cons, Bool.or_eq_true,
                decide_eq_true_eq] at covered
              rcases covered with rfl | covered
              · rw [inBase] at original
                rw [original] at inBase ⊢
                exact kept _ page back.restored later
              · exact absurd covered (Bool.eq_false_iff.mp later)
      · rintro failure after ⟨byPager, stormy, length_eq, others, kept⟩
        refine ⟨byPager, fun before => stormy (back.calm before),
          length_eq.trans back.length_eq, ?_, fun index other inBase fetched =>
            kept index other inBase (back.kept original inBase fetched)⟩
        intro index otherPage fetched isUncovered
        rcases uncovered fetched isUncovered with ⟨stillThere, inRest⟩
        exact others index otherPage stillThere inRest

/-! ## Undoing a transaction -/

omit [Pager σ] [AtomicPager σ] in
/-- What the pager answers does not depend on the events logged before. -/
theorem call_of_log {α : Type} {operation : EStateM PagerError σ α} {value : α}
    {session : Session σ}
    {after : Session σ} (given : TreeM.call operation session = .ok value after)
    (log : List Event) :
    TreeM.call operation { session with log } = .ok value { after with log } := by
  simp only [TreeM.call, TreeM.ofPager, SessionM.relabel, SessionM.onDevice] at given ⊢
  revert given
  cases operation session.device with
  | ok result device =>
      intro given
      injection given with value_eq after_eq
      rw [← value_eq, ← after_eq]
  | error error device =>
      intro given
      contradiction

omit [AtomicPager σ] in
/-- Copying back does the same whatever was reported before. -/
theorem copyBack_of_log {shadows : Shadows} {session after : Session σ}
    (copies : copyBack shadows session = .ok () after) (log : List Event) :
    copyBack shadows { session with log } = .ok () { after with log } := by
  induction shadows generalizing session with
  | nil =>
      injection copies with _ same
      rw [← same]
      rfl
  | cons shadow rest ih =>
      simp only [copyBack] at copies ⊢
      rcases exists_of_bind_eq_ok copies with ⟨page, middle, reads, copies⟩
      rcases exists_of_bind_eq_ok copies with ⟨_, written, writes, copies⟩
      refine (bind_eq_of_ok (call_of_log reads log) _).trans ?_
      exact (bind_eq_of_ok (call_of_log writes log) _).trans (ih copies)

/-- The copies can be read and written back: no call of the pager fails that does so. -/
def CopiesBack (holding : Holding Transaction σ) : Prop :=
  ∃ after, copyBack holding.held.shadows holding.session = .ok () after

/-- The tree as it was before the transaction. -/
def treeBefore (transaction : Transaction) : Tree :=
  { transaction.tree with anchor := transaction.anchorBefore }

/-- The transaction with the tree from before it. -/
def withTreeBefore (transaction : Transaction) : Transaction :=
  { transaction with tree := transaction.treeBefore }

theorem Advances.treeBefore_eq {touched : PageIndex → Prop}
    {before after : Holding Transaction σ} (advances : Advances touched before after) :
    after.held.treeBefore = before.held.treeBefore := by
  simp only [treeBefore]
  rw [Tree.mk.injEq]
  exact ⟨advances.anchorIndex_eq, advances.anchorBefore_eq, advances.config_eq⟩

/-- The pages were brought back, if the copies could be. The anchor was in any case. -/
structure Undone (base : List Page) (before after : Holding Transaction σ) : Prop where
  held_eq : after.held = withTreeBefore before.held
  /-- A page that holds what it held before the transaction goes on to do so. -/
  kept : ∀ index page, fetch base index = some page →
    fetch before.session.pages index = some page → fetch after.session.pages index = some page
  /-- Only pages that were copied are overwritten. -/
  uncovered : ∀ index page, fetch before.session.pages index = some page →
    before.held.shadows.covers index = false → fetch after.session.pages index = some page
  includes : CopiesBack before → Includes base after.session.pages
  length_eq : after.session.pages.length = before.session.pages.length
  calm : before.session.Calm → after.session.Calm

variable {holding : Holding Transaction σ}

theorem Undoable.copiesBack (undoable : Undoable base holding.held holding.session.pages)
    (calm : holding.session.Calm) : CopiesBack holding := by
  have copying := copyBack_ends undoable.longer undoable.copied undoable.beyond
  rcases Ends.exists_ok (copying.mono (fun _ _ => id) fun _ _ fails => fails.2.1 calm)
    (fun _ _ => id) with ⟨_, after, copies, _⟩
  exact ⟨after, copies⟩

/-- Undoing brings back the anchor, and the pages if the copies can be written back. -/
theorem undo_ends (undoable : Undoable base holding.held holding.session.pages) :
    Ends (undo holding) (fun _ after => Undone base holding after)
      (fun failure after => Undone base holding after ∧ ¬ holding.session.Calm ∧
        ∃ cause, failure = .error (.pager cause)) := by
  simp only [undo, setAnchor]
  rw [HoldingM.held_bind, bind_assoc, HoldingM.held_bind, HoldingM.hold_bind]
  have copying := copyBack_ends undoable.longer undoable.copied undoable.beyond
  -- The anchor in memory is reset before any call of the pager.
  have copied : Ends (within (copyBack holding.held.shadows)
        ⟨withTreeBefore holding.held, holding.session⟩)
      (fun _ after => Undone base holding after ∧ Includes base after.session.pages)
      (fun failure after => Undone base holding after ∧ ¬ holding.session.Calm ∧
        ∃ cause, failure = .error (.pager cause)) := by
    apply HoldingM.within_ends
    apply Ends.mono (copying.and (Ends.self _ holding.session))
    · rintro _ after ⟨⟨calm, length_eq, kept, brought⟩, copies⟩
      have includes : Includes base after.pages := by
        intro index page inBase
        cases covered : holding.held.shadows.covers index with
        | true => exact brought index page inBase covered
        | false => exact kept index page (undoable.kept index page inBase covered) covered
      exact ⟨⟨rfl, fun index page inBase _ => includes index page inBase, kept, fun _ => includes,
        length_eq, calm⟩, includes⟩
    · rintro failure after ⟨⟨byPager, stormy, length_eq, others, held⟩, fails⟩
      refine ⟨⟨rfl, held, others, ?_, length_eq, fun calm => absurd calm stormy⟩, stormy, byPager⟩
      rintro ⟨last, copies⟩
      rw [fails] at copies
      contradiction
  apply Ends.bind copied
  rintro _ middle ⟨undone, includes⟩
  -- A sync that fails takes nothing of this back.
  have settled : ∀ session, middle.session.Still session →
      Undone base holding { middle with session } := by
    intro session still
    have includesAfter : Includes base session.pages := by
      rw [still.pages_eq]
      exact includes
    refine ⟨undone.held_eq, fun index page inBase _ => includesAfter index page inBase, ?_,
      fun _ => includesAfter, ?_, fun calm => still.calm (undone.calm calm)⟩
    · change ∀ index page, _ → _ → fetch session.pages index = some page
      rw [still.pages_eq]
      exact undone.uncovered
    · change session.pages.length = _
      rw [still.pages_eq]
      exact undone.length_eq
  apply Ends.bind
    (Ends.mono ((TreeM.sync_consults middle.session.pages).within_ends middle rfl)
      (fun _ _ => id) ?_)
  · rintro _ ⟨_, session⟩ ⟨_, rfl, still⟩
    exact settled _ ⟨still.pages_eq, still.calm⟩
  · rintro failure ⟨_, session⟩ ⟨rfl, denied⟩
    exact ⟨settled session denied.still, fun calm => denied.stormy (undone.calm calm),
      denied.byPager⟩

/-- Undoing anyway ends well even if a page cannot be brought back. -/
theorem undoAnyway_ends (undoable : Undoable base holding.held holding.session.pages)
    (failed : TreeError → Event) :
    Ends (undoAnyway failed holding) (fun _ after => Undone base holding after)
      (fun _ _ => False) := by
  simp only [undoAnyway]
  apply Ends.tryCatch (undo_ends undoable)
  rintro failure after ⟨undone, _, cause, rfl⟩
  exact { undone with }

/-! ## Transactions that have ended -/

omit [Pager σ] [AtomicPager σ] in
theorem requireActive_bind {α : Type} (active : holding.held.phase = .active)
    (next : Unit → TransactionM σ α) : (requireActive >>= next) holding = next () holding := by
  apply bind_eq_of_ok
  simp only [requireActive]
  rw [HoldingM.held_bind, isActive, active, if_neg (by decide)]
  rfl

omit [Pager σ] [AtomicPager σ] in
/-- A transaction that has ended says so, whatever is asked of it. -/
theorem requireActive_closed (ended : holding.held.phase ≠ .active) :
    requireActive holding = .error (.error .transactionClosed) holding := by
  simp only [requireActive]
  rw [HoldingM.held_bind, isActive, if_pos (by simpa using ended)]
  rfl

/-! ## Ends of transactions -/

/-- The transaction ended without effect, if the copies could be written back. -/
structure Aborted (base : List Page) (before after : Holding Transaction σ) : Prop where
  held_eq : after.held = { withTreeBefore before.held with phase := .aborted }
  uncovered : ∀ index page, fetch before.session.pages index = some page →
    before.held.shadows.covers index = false → fetch after.session.pages index = some page
  includes : CopiesBack before → Includes base after.session.pages
  length_eq : after.session.pages.length = before.session.pages.length
  calm : before.session.Calm → after.session.Calm

theorem Aborted.ended {before after : Holding Transaction σ} (aborted : Aborted base before after) :
    after.held.phase ≠ .active := by
  rw [aborted.held_eq]
  simp

theorem enter_aborted {before after : Holding Transaction σ} (undone : Undone base before after) :
    Ends (enter .aborted after) (fun _ last => Aborted base before last)
      (fun _ _ => False) := by
  simp only [enter]
  rw [HoldingM.held_bind]
  refine ⟨?_, undone.uncovered, undone.includes, undone.length_eq, undone.calm⟩
  exact congrArg (fun transaction : Transaction => { transaction with phase := .aborted })
    undone.held_eq

theorem abort_ends (undoable : Undoable base holding.held holding.session.pages) :
    Ends (abort holding) (fun _ after => Aborted base holding after) (fun _ _ => False) := by
  simp only [abort]
  apply Ends.bind (undoAnyway_ends undoable .undoFailed)
  intro _ middle undone
  exact enter_aborted undone

theorem Aborted.of_log {log : List Event} {after : Holding Transaction σ}
    (aborted : Aborted base ⟨holding.held, { holding.session with log }⟩ after) :
    Aborted base holding after where
  held_eq := aborted.held_eq
  uncovered := aborted.uncovered
  includes := by
    rintro ⟨last, copies⟩
    exact aborted.includes ⟨_, copyBack_of_log copies log⟩
  length_eq := aborted.length_eq
  calm := aborted.calm

/-- Dropping a transaction undoes it. A failure on the way is reported and not passed on. -/
theorem drop_ends (undoable : Undoable base holding.held holding.session.pages)
    (active : holding.held.phase = .active) :
    Ends (drop holding) (fun _ after => Aborted base holding after) (fun _ _ => False) := by
  simp only [drop]
  rw [HoldingM.held_bind, isActive, active, if_pos (by decide)]
  let reported : Holding Transaction σ :=
    { holding with session :=
      { holding.session with log := holding.session.log ++ [Event.droppedActive] } }
  change Ends ((undoAnyway .dropFailed >>= fun _ => enter .aborted) reported) _ _
  have still : Undoable base reported.held reported.session.pages := undoable
  apply Ends.bind (undoAnyway_ends still .dropFailed)
  intro _ middle undone
  apply Ends.mono (enter_aborted undone)
  · intro _ after aborted
    exact aborted.of_log
  · intro _ _
    exact id

/-- Rolling back undoes a transaction and ends it. If the last call of the pager fails, the pages
were brought back nevertheless. -/
theorem rollback_ends (undoable : Undoable base holding.held holding.session.pages)
    (active : holding.held.phase = .active) :
    Ends (rollback holding) (fun _ after => Aborted base holding after)
      (fun failure after => Aborted base holding after ∧ ¬ holding.session.Calm ∧
        ∃ cause, failure = .error (.pager cause)) := by
  simp only [rollback]
  rw [requireActive_bind active]
  have undone : Ends (tryCatch undo (fun failure => do
        enter .aborted
        throw failure) holding)
      (fun _ middle => Undone base holding middle)
      (fun failure after => Aborted base holding after ∧ ¬ holding.session.Calm ∧
        ∃ cause, failure = .error (.pager cause)) := by
    apply Ends.tryCatch (undo_ends undoable)
    rintro failure middle ⟨undone, stormy, byPager⟩
    apply Ends.bind (Ends.mono (enter_aborted undone) (fun _ _ => id) fun _ _ => False.elim)
    intro _ after aborted
    exact ⟨aborted, stormy, byPager⟩
  apply Ends.bind undone
  intro _ middle undone
  exact (enter_aborted undone).mono (fun _ _ => id) fun _ _ => False.elim

end Transaction

end PagedMap
