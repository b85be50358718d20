import PagedMap.Proofs.Tree.Interrupting
import PagedMap.Proofs.Tree.Points

/-!
# Copies guard the pages from before a transaction

At every point between two calls of the pager, until a transaction is undone or has ended, each page
from before it is as it was, or has one copy that is as the page was. No copy is given up or
overwritten, and none can be reached from the root. So whatever the transaction has written, it can
be undone.
-/

namespace PagedMap

open PageList (fetch nextIndex)

/-- What happens in an active transaction until it is undone or has ended. -/
inductive Work where
  /-- An entry is written. -/
  | put (key : Bytes) (short : key.length ≤ maxKeySize) (value : Addressable)
  /-- A call is made that does not insert. -/
  | other (call : Call) (noInsert : ∀ key value, call ≠ .insert key value)
  /-- The transaction is going to be committed. -/
  | makeDurable

namespace Work

variable {σ : Type} [Pager σ]

def perform : Work → TransactionM σ Unit
  | put key _ value => Transaction.put key value.val
  | other call _ => call.perform
  | makeDurable => Transaction.makeDurable

/-- All work of a transaction can be stopped at each of its calls. -/
theorem follows (work : Work) (holding : Holding Transaction σ) :
    Course.Follows Course.transactions (work.perform : TransactionM (Stopping σ) Unit)
      work.perform holding := by
  cases work with
  | put key short value => exact Course.put_follows key value.val
  | makeDurable => exact Course.makeDurable_follows
  | other call noInsert =>
      cases call with
      | insert key value => exact absurd rfl (noInsert key value)
      | get? key =>
          have gets : Course.Follows Course.transactions
              (Transaction.get? key : TransactionM (Stopping σ) _) (Transaction.get? key)
              holding := by
            simp only [Transaction.get?]
            apply Course.requireActive_follows.bind
            intro _ _ _
            exact Course.Follows.held_bind (Course.within_follows (Course.get?_follows _ key))
          exact gets.map _
      | contains key =>
          have asks : Course.Follows Course.transactions
              (Transaction.contains key : TransactionM (Stopping σ) _) (Transaction.contains key)
              holding := by
            simp only [Transaction.contains]
            apply Course.requireActive_follows.bind
            intro _ _ _
            exact Course.Follows.held_bind (Course.within_follows (Course.contains_follows _ key))
          exact asks.map _
      | erase key =>
          apply Course.requireActive_follows.bind
          intro _ _ _
          exact .throw _
      | shadow index => exact Course.shadow_follows index

end Work

/-- The copies of a transaction guard the pages that were there when it began. A page that has a
copy has only one, which was appended since and holds what the page held, and other pages are as
they were. No copy is reached from the root, be it the one in memory or the one that is stored. -/
structure Guards {σ : Type} [Pager σ] [AtomicPager σ] (base : List Page)
    (holding : Holding Transaction σ) : Prop where
  fresh : ∀ index page, fetch base index = some page → index < holding.held.freshFrom
  copied : ∀ shadow ∈ holding.held.shadows, holding.held.freshFrom ≤ shadow.copy ∧
    ∃ page, fetch base shadow.page = some page ∧
      fetch holding.session.pages shadow.copy = some page
  kept : ∀ index page, fetch base index = some page →
    holding.held.shadows.covers index = false → fetch holding.session.pages index = some page
  once : (holding.held.shadows.map Shadow.page).Nodup
  apart : (holding.held.shadows.map Shadow.copy).Nodup
  unreached : ∀ anchor : Anchor, anchor = holding.held.tree.anchor ∨
      fetch holding.session.pages holding.held.tree.anchorIndex = some anchor.toPage →
    ∀ shadow ∈ holding.held.shadows, shadow.copy ≠ holding.held.tree.anchorIndex ∧
      ∀ role, ¬ Reached holding.session.pages anchor role shadow.copy

variable {σ : Type} [Pager σ] [AtomicPager σ] {base : List Page} {limit : Nat}
  {outline : Outline} {contents : Contents} {holding before after : Holding Transaction σ}

namespace Transaction

theorem Bears.unreached {anchor : Anchor}
    (bears : Bears limit outline contents before after anchor) :
    ∀ shadow ∈ after.held.shadows, ∀ role,
      ¬ Reached after.session.pages anchor role shadow.copy := by
  intro shadow member role reached
  rcases bears.retains with ⟨later, retains, owned⟩
  exact (owned role _ (retains.belongs_of_reached reached)).1 shadow member rfl

/-- What survives is guarded: the copies are there, and nothing else from before has changed. -/
theorem Survives.guards (survives : Survives base limit outline contents before after) :
    Guards base after where
  fresh index page fetched := by
    have undoable := survives.undoable
    rw [undoable.fresh, Int64.lt_iff_toInt_lt, PageList.toInt_nextIndex undoable.room]
    have := PageList.position_lt fetched
    have := (PageList.fetch_eq_some.mp fetched).1
    omega
  copied shadow member := by
    have undoable := survives.undoable
    rcases undoable.copied shadow member with ⟨page, inBase, copied⟩
    refine ⟨?_, page, inBase, copied⟩
    rw [undoable.fresh]
    exact (le_iff_fetch_none undoable.room copied).mpr (undoable.beyond shadow member)
  kept := survives.undoable.kept
  once := survives.undoable.once
  apart := survives.undoable.apart
  unreached anchor named shadow member := by
    refine ⟨survives.anchorOwn shadow member, ?_⟩
    rcases named with rfl | fetched
    · exact survives.held.unreached shadow member
    · rcases survives.stored with ⟨stored, storedFetched, bears⟩
      rw [fetched] at storedFetched
      injection storedFetched with same
      rw [Anchor.toPage_inj same]
      exact bears.unreached shadow member

/-- Whatever happens in a transaction, and wherever it stops, some contents survive. -/
theorem Maintains.work_ends (maintains : Maintains base limit outline contents holding)
    (active : holding.held.phase = .active) (bounded : limit ≤ 255)
    (roomy : holding.held.tree.config.maxEntries ≤ limit) (work : Work) :
    Ends (work.perform holding)
      (fun _ after => ∃ now, Survives base limit outline now holding after)
      (fun _ after => ∃ now, Survives base limit outline now holding after) := by
  cases work with
  | put key short value =>
      apply Ends.mono (put_ends maintains bounded roomy short value.2)
      · intro _ after entered
        exact ⟨_, entered.continues.survives⟩
      · intro failure after interrupted
        rcases interrupted.survives with survives | survives
        · exact ⟨_, survives⟩
        · exact ⟨_, survives⟩
  | other call noInsert =>
      apply Ends.mono (call.perform_ends_of_no_insert maintains active noInsert)
      · rintro _ after ⟨continues, _⟩
        exact ⟨_, continues.survives⟩
      · rintro failure after ⟨_, continues, _⟩
        exact ⟨_, continues.survives⟩
  | makeDurable =>
      apply Ends.mono (makeDurable_ends maintains)
      · rintro _ after ⟨survives, _⟩
        exact ⟨_, survives⟩
      · rintro failure after ⟨survives, _⟩
        exact ⟨_, survives⟩

end Transaction

/-- At every point of what happens in a transaction, and at its end, copies guard the pages. What
has been copied stays copied, and it is copied once. -/
structure Work.Guarded (base : List Page) (holding : Holding Transaction σ) (work : Work) :
    Prop where
  last : Guards base (lastState (work.perform holding))
  points : ∀ calls, Guards base (stopAfter calls work.perform holding)
  earlier : ∀ calls, ∀ shadow ∈ holding.held.shadows,
    shadow ∈ (stopAfter calls work.perform holding).held.shadows
  later : ∀ calls, ∀ shadow ∈ (stopAfter calls work.perform holding).held.shadows,
    shadow ∈ (lastState (work.perform holding)).held.shadows

theorem Transaction.Maintains.guarded (maintains : Maintains base limit outline contents holding)
    (active : holding.held.phase = .active) (bounded : limit ≤ 255)
    (roomy : holding.held.tree.config.maxEntries ≤ limit) (work : Work) :
    work.Guarded base holding where
  last := by
    rcases lastState_of_ends (maintains.work_ends active bounded roomy work) with ⟨_, survives⟩
    exact survives.guards
  points calls := by
    rcases lastState_of_ends ((maintains.serving calls).work_ends active bounded roomy work) with
      ⟨_, survives⟩
    exact survives.guards
  earlier calls := ((work.follows holding).shadows calls).1
  later calls := ((work.follows holding).shadows calls).2

/-- In a transaction on a tree that can be reached, copies guard the pages from before it, whatever
happens next and at every point of it. -/
theorem work_guarded {session opened : Session σ} {tree : Tree} {begun : Transaction}
    (reachable : Reachable session tree)
    (starts : Transaction.start tree session = .ok begun opened) (calls : List Call)
    (active : (Call.leaveAll calls ⟨begun, opened⟩).held.phase = .active) (work : Work) :
    work.Guarded session.pages (Call.leaveAll calls ⟨begun, opened⟩) := by
  rcases reachable.keeps with ⟨_, _, keeps⟩
  rcases ((keeps.stands starts).calls calls active).maintains with ⟨outline, contents, maintains⟩
  exact maintains.guarded active (Nat.le_refl _) (Config.maxEntries_le _) work

/-- In an empty memory a tree is made, and a first key is inserted, for which the leaf is copied.
Then a second key is written. -/
theorem work_guarded_memory :
    ∃ (tree : Tree) (session opened : Session Memory) (begun : Transaction),
      Tree.openOrCreate 0 .default ⟨⟨[]⟩, []⟩ = .ok tree session ∧
      Transaction.start tree session = .ok begun opened ∧
      (Call.leaveAll [.insert [1] ⟨[2], by decide⟩] ⟨begun, opened⟩).held.shadows = [⟨2, 3⟩] ∧
      (Work.put [3] (by decide) ⟨[4], by decide⟩).Guarded session.pages
        (Call.leaveAll [.insert [1] ⟨[2], by decide⟩] ⟨begun, opened⟩) := by
  let calls : List Call := [.insert [1] ⟨[2], by decide⟩]
  have runs : Ends (Tree.openOrCreate 0 .default (⟨⟨[]⟩, []⟩ : Session Memory))
      (fun tree session => Ends (Transaction.start tree session)
        (fun begun opened => (Call.leaveAll calls ⟨begun, opened⟩).held.phase = .active ∧
          (Call.leaveAll calls ⟨begun, opened⟩).held.shadows = [⟨2, 3⟩])
        (fun _ _ => False))
      (fun _ _ => False) := by
    decide +kernel
  rcases runs.exists_ok (fun _ _ => id) with ⟨tree, session, opens, begins⟩
  rcases begins.exists_ok (fun _ _ => id) with ⟨begun, opened, starts, active, copied⟩
  have reachable := Reachable.made (Or.inl rfl) opens
  exact ⟨tree, session, opened, begun, opens, starts, copied,
    work_guarded reachable starts calls active _⟩

end PagedMap
