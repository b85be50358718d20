import PagedMap.Proofs.Page.LeafUpdates
import PagedMap.Proofs.Tree.Putting

/-!
# Opening a tree

Opening a tree where there is none makes one that keeps nothing. A tree that is there is opened as
it is, whatever its configuration was before. A transaction that begins on a tree can be undone.
-/

namespace PagedMap

open PageList (fetch store)
open Session (Denied)

variable {σ : Type} [Pager σ] [AtomicPager σ] {limit : Nat} {pages : List Page} {tree : Tree}
  {outline : Outline} {contents : Contents} {index : PageIndex}

/-! ## Making a tree -/

/-- A tree can be made with its anchor where the pages end, or at a blank page. -/
def Creatable (pages : List Page) (index : PageIndex) : Prop :=
  PageIndex.position index = .ok pages.length ∨
    ∃ page, fetch pages index = some page ∧ page.kind? = some .blank

namespace Outline

/-- A tree that keeps nothing: its root is a leaf without records. -/
def empty (anchor : Anchor) : Outline := ⟨[⟨[], anchor.root, [], anchor.sentinel⟩], []⟩

end Outline

/-- Two empty leaves and an anchor make a tree that keeps nothing. -/
theorem Keeps.of_empty (anchored : fetch pages tree.anchorIndex = some tree.anchor.toPage)
    (ended : fetch pages tree.anchor.sentinel = some (Leaf.empty 0).toPage)
    (rooted : fetch pages tree.anchor.root = some (Leaf.empty tree.anchor.sentinel).toPage)
    (apart : tree.anchor.sentinel ≠ tree.anchor.root) :
    Keeps limit pages tree (Outline.empty tree.anchor) .empty := by
  refine ⟨anchored, ended, ⟨⟨?_, ?_⟩, ?_, ?_, ?_, ?_, ?_⟩, ⟨rfl, ?_, ?_, ?_, List.nodup_nil⟩,
    ⟨?_, ?_⟩⟩
  · exact List.Pairwise.nil
  · exact ⟨_, [], rfl, rfl, fun more => absurd rfl more, by simp⟩
  · intro sheet member
    rw [List.mem_singleton.mp member]
    exact ⟨Leaf.empty tree.anchor.sentinel, rooted, rfl, Leaf.empty_holds _⟩
  · intro sheet member
    rw [List.mem_singleton.mp member]
    exact Nat.zero_le limit
  · exact ⟨tree.anchor.root, rfl, rfl⟩
  · simpa [Outline.empty] using apart
  · intro record member
    contradiction
  · intro group member
    contradiction
  · intro group member
    contradiction
  · intro group member
    contradiction
  · intro record member
    contradiction
  · intro key value known
    contradiction

/-- An empty tree stands beside pages from before: its two leaves are new, and of the other pages at
most the one of the anchor has changed. -/
structure Fresh (base : List Page) (tree : Tree) (pages : List Page) : Prop where
  anchored : fetch pages tree.anchorIndex = some tree.anchor.toPage
  ended : fetch pages tree.anchor.sentinel = some (Leaf.empty 0).toPage
  rooted : fetch pages tree.anchor.root = some (Leaf.empty tree.anchor.sentinel).toPage
  apart : tree.anchor.sentinel ≠ tree.anchor.root
  sentinel_new : fetch base tree.anchor.sentinel = none
  root_new : fetch base tree.anchor.root = none
  others : IncludesOthers tree.anchorIndex base pages

theorem Fresh.keeps {base : List Page} (fresh : Fresh base tree pages) :
    Keeps limit pages tree (Outline.empty tree.anchor) .empty :=
  Keeps.of_empty fresh.anchored fresh.ended fresh.rooted fresh.apart

/-- A session goes on: no page is lost, and a calm pager stays calm. -/
structure Session.Grows (before after : Session σ) : Prop where
  longer : before.pages.length ≤ after.pages.length
  calm : before.Calm → after.Calm

namespace Session.Grows

variable {before middle after : Session σ}

theorem trans (first : before.Grows middle) (second : middle.Grows after) : before.Grows after :=
  ⟨Nat.le_trans first.longer second.longer, fun calm => second.calm (first.calm calm)⟩

theorem of_still (still : before.Still after) : before.Grows after :=
  ⟨still.longer.length_le, still.calm⟩

end Session.Grows

/-- The anchor that holds the place of the anchor page while the leaves of a tree are made. -/
def Anchor.placeholder : Anchor := ⟨0, 0, 0⟩

/-- What is stored when a tree could not be made. -/
inductive Leftover (base : List Page) (index : PageIndex) (pages : List Page) : Prop where
  /-- Nothing has been written. -/
  | nothing (same : pages = base)
  /-- The place of the anchor is held, and the leaves may have been written or not. -/
  | placeholder (stored : fetch pages index = some Anchor.placeholder.toPage)
      (others : IncludesOthers index base pages)
  /-- Everything has been written. -/
  | finished {tree : Tree} (fresh : Fresh base tree pages)
      (anchorIndex_eq : tree.anchorIndex = index)

/-- The call at which making a tree fails, and what is stored then. -/
inductive Breaks (index : PageIndex) (before : Session σ) (failure : Failure TreeError)
    (after : Session σ) : Prop where
  /-- The pages are counted. -/
  | counting {found : Session σ} (still : before.Still found)
      (fails : TreeM.pageCount found = .error failure after) (nothing : after.pages = before.pages)
  /-- The page in the place of the anchor is read. -/
  | looking {found : Session σ} (still : before.Still found)
      (fails : TreeM.readPage index found = .error failure after)
      (nothing : after.pages = before.pages)
  /-- The place of the anchor is taken. -/
  | placing {found : Session σ} (still : before.Still found)
      (fails : TreeM.writePage Anchor.placeholder.toPage index found = .error failure after)
      (nothing : after.pages = before.pages)
  /-- The sentinel or the first leaf is appended, with the place taken before. -/
  | appending {held : Session σ} {page : Page}
      (placed : fetch held.pages index = some Anchor.placeholder.toPage)
      (fails : TreeM.appendPage page held = .error failure after)
      (stored : fetch after.pages index = some Anchor.placeholder.toPage)
      (others : IncludesOthers index before.pages after.pages)
  /-- The anchor is written, with the place taken before. -/
  | anchoring {held : Session σ} {anchor : Anchor}
      (placed : fetch held.pages index = some Anchor.placeholder.toPage)
      (fails : TreeM.writePage anchor.toPage index held = .error failure after)
      (stored : fetch after.pages index = some Anchor.placeholder.toPage)
      (others : IncludesOthers index before.pages after.pages)
  /-- The pages are made durable. -/
  | syncing {written : Session σ} {tree : Tree} (fails : TreeM.sync written = .error failure after)
      (fresh : Fresh before.pages tree after.pages) (anchorIndex_eq : tree.anchorIndex = index)

namespace Breaks

variable {before middle after : Session σ} {failure : Failure TreeError}

/-- Until the place of the anchor is taken a failure leaves nothing behind, and at the end the whole
tree. In between it leaves the place, with no leaves that it names. -/
theorem leftover (breaks : Breaks index before failure after) :
    Leftover before.pages index after.pages := by
  cases breaks with
  | counting _ _ nothing => exact .nothing nothing
  | looking _ _ nothing => exact .nothing nothing
  | placing _ _ nothing => exact .nothing nothing
  | appending _ _ stored others => exact .placeholder stored others
  | anchoring _ _ stored others => exact .placeholder stored others
  | syncing _ fresh anchorIndex_eq => exact .finished fresh anchorIndex_eq

/-- What broke after the pages had only been looked at broke at the same call seen from before. -/
theorem of_still (still : before.Still middle) (breaks : Breaks index middle failure after) :
    Breaks index before failure after := by
  cases breaks with
  | counting later fails nothing =>
      exact .counting (still.trans later) fails (nothing.trans still.pages_eq)
  | looking later fails nothing =>
      exact .looking (still.trans later) fails (nothing.trans still.pages_eq)
  | placing later fails nothing =>
      exact .placing (still.trans later) fails (nothing.trans still.pages_eq)
  | appending placed fails stored others =>
      exact .appending placed fails stored (still.pages_eq ▸ others)
  | anchoring placed fails stored others =>
      exact .anchoring placed fails stored (still.pages_eq ▸ others)
  | syncing fails fresh anchorIndex_eq =>
      exact .syncing fails (still.pages_eq ▸ fresh) anchorIndex_eq

end Breaks

/-- A tree could not be opened where there was none. A calm pager fails only when there are no more
page indices. -/
structure Unopened (index : PageIndex) (before : Session σ) (failure : Failure TreeError)
    (after : Session σ) : Prop where
  byPager : ∃ cause, failure = .error (.pager cause)
  breaks : Breaks index before failure after
  longer : before.pages.length ≤ after.pages.length
  full : before.Calm → Word.signedLimit ≤ after.pages.length
  /-- Making a tree appends up to three pages. -/
  crowded : before.Calm → Word.signedLimit ≤ before.pages.length + 2

namespace Session

variable {before middle after : Session σ} {failure : Failure TreeError}

theorem Denied.rejected (denied : before.Denied failure after) : before.Rejected failure after :=
  ⟨denied.byPager, denied.still.longer, denied.still.calm, fun calm => absurd calm denied.stormy⟩

theorem Denied.unopened (denied : before.Denied failure after)
    (breaks : Breaks index before failure after) : Unopened index before failure after :=
  ⟨denied.byPager, breaks, denied.still.longer.length_le, fun calm => absurd calm denied.stormy,
    fun calm => absurd calm denied.stormy⟩

theorem Still.unopened (still : before.Still middle) (fails : Unopened index middle failure after) :
    Unopened index before failure after := by
  rcases fails with ⟨byPager, breaks, longer, full, crowded⟩
  rw [still.pages_eq] at longer crowded
  exact ⟨byPager, breaks.of_still still, longer, fun calm => full (still.calm calm),
    fun calm => crowded (still.calm calm)⟩

end Session

/-- A page is put where a tree can be made: behind the last page, or in the place of a blank one. -/
theorem place_ends {session : Session σ} (creatable : Creatable session.pages index)
    (page : Page) :
    Ends (TreeM.writePage page index session)
      (fun _ after => fetch after.pages index = some page ∧
        IncludesOthers index session.pages after.pages ∧
        AddsOnly (· = index) session.pages after.pages ∧
        after.pages.length ≤ session.pages.length + 1 ∧ session.Grows after)
      session.Denied := by
  -- The place is right behind the last page, or it holds a blank one.
  rcases creatable with isEnd | ⟨blank, fetched, _⟩
  · apply Ends.mono (TreeM.writePage_end_ends isEnd page) _ fun _ _ => id
    rintro _ after ⟨appended, calm⟩
    have nonnegative : 0 ≤ index.toInt ∧ index.toInt.toNat = session.pages.length := by
      simp only [PageIndex.position] at isEnd
      split at isEnd
      · contradiction
      · injection isEnd with isEnd
        exact ⟨by omega, isEnd⟩
    have longer : session.pages <+: after.pages := ⟨[page], appended.symm⟩
    have placed : fetch (session.pages ++ [page]) index = some page := by
      rw [PageList.fetch_eq_some, nonnegative.2]
      exact ⟨nonnegative.1, by simp⟩
    have isNext : index = PageList.nextIndex session.pages := by
      apply PageList.eq_nextIndex_of_append _ placed
      rw [fetch, if_neg (by omega), nonnegative.2, List.getElem?_eq_none (Nat.le_refl _)]
    refine ⟨?_, (includes_of_longer longer).others, ?_, ?_, longer.length_le, calm⟩
    · rw [appended]
      exact placed
    · rw [appended, isNext]
      exact AddsOnly.append session.pages page
    · rw [appended, List.length_append]
      exact Nat.le_refl _
  · apply Ends.mono (TreeM.writePage_ends fetched page) _ fun _ _ => id
    rintro _ after ⟨stored, calm⟩
    have sameLength : after.pages.length = session.pages.length := by
      rw [stored, PageList.length_store]
    refine ⟨?_, ?_, .of_length_le (Nat.le_of_eq sameLength), by omega,
      Nat.le_of_eq sameLength.symm, calm⟩
    · rw [stored]
      exact PageList.fetch_store_same fetched
    · intro other otherPage different otherFetched
      rw [stored, PageList.fetch_store_of_ne fetched different.symm]
      exact otherFetched

/-- An appended page takes an index that was free, and all other pages are as before. -/
theorem append_page_ends (page : Page) (session : Session σ) :
    Ends (TreeM.appendPage page session)
      (fun index after => fetch session.pages index = none ∧
        fetch after.pages index = some page ∧ Includes session.pages after.pages ∧
        AddsOnly (· = index) session.pages after.pages ∧
        after.pages.length = session.pages.length + 1 ∧ session.Grows after)
      session.Rejected := by
  apply Ends.mono (TreeM.appendPage_ends page session) _ fun _ _ => id
  rintro index after ⟨rfl, room, appended, calm⟩
  have longer : session.pages <+: after.pages := ⟨[page], appended.symm⟩
  refine ⟨PageList.fetch_nextIndex_none room, ?_, includes_of_longer longer, ?_, ?_,
    longer.length_le, calm⟩
  · rw [appended]
    exact PageList.fetch_nextIndex room
  · rw [appended]
    exact AddsOnly.append session.pages page
  · rw [appended, List.length_append]
    rfl

/-- A tree was opened where there was none: an empty one was made. -/
structure Opened (index : PageIndex) (config : Config) (before : Session σ) (tree : Tree)
    (after : Session σ) : Prop where
  fresh : Fresh before.pages tree after.pages
  anchorIndex_eq : tree.anchorIndex = index
  config_eq : tree.config = config
  sequence_eq : tree.anchor.sequence = 0
  adds : AddsOnly (fun other => other = tree.anchorIndex ∨ other = tree.anchor.sentinel ∨
    other = tree.anchor.root) before.pages after.pages
  grows : before.Grows after

/-- While the place of the anchor is held, making a tree may fail. -/
theorem Session.Rejected.unopened {session middle after : Session σ} {failure : Failure TreeError}
    (rejected : middle.Rejected failure after)
    (placed : fetch middle.pages index = some Anchor.placeholder.toPage)
    (others : IncludesOthers index session.pages middle.pages) (grows : session.Grows middle)
    (crowded : middle.Calm → Word.signedLimit ≤ session.pages.length + 2)
    (breaks : fetch after.pages index = some Anchor.placeholder.toPage →
      IncludesOthers index session.pages after.pages → Breaks index session failure after) :
    Unopened index session failure after := by
  have includes := includes_of_longer rejected.longer
  have longer := rejected.longer.length_le
  refine ⟨rejected.byPager, breaks (includes _ _ placed) (others.trans includes.others),
    Nat.le_trans grows.longer longer, ?_, fun calm => crowded (grows.calm calm)⟩
  exact fun calm => Nat.le_trans (rejected.full (grows.calm calm)) longer

/-- Making a tree ends with an empty one, or with a failure of one of its five calls. -/
theorem Tree.create_ends (config : Config) {session : Session σ}
    (creatable : Creatable session.pages index) :
    Ends (Tree.create index config session) (Opened index config session)
      (Unopened index session) := by
  simp only [Tree.create]
  -- Five calls follow each other: the placeholder, the sentinel, the root, the anchor over the
  -- placeholder, and a sync. What is known of the pages is carried from each to the next.
  apply Ends.bind ((place_ends creatable Anchor.placeholder.toPage).mono_error
    fun _ _ fails denied =>
      denied.unopened (.placing (.refl session) fails denied.still.pages_eq))
  rintro _ first ⟨placed, others, addsAnchor, few, grows⟩
  apply Ends.bind ((append_page_ends _ first).mono_error ?_)
  · rintro sentinel second ⟨noSentinel, ended, includes, addsSentinel, length_eq, growsSecond⟩
    have sentinelNew := PageList.fetch_none_of_le grows.longer noSentinel
    have sentinelApart : index ≠ sentinel := PageList.ne_of_fetch placed noSentinel
    replace placed := includes _ _ placed
    replace others := others.trans includes.others
    replace grows := grows.trans growsSecond
    apply Ends.bind ((append_page_ends _ second).mono_error ?_)
    · rintro root third ⟨noRoot, rooted, includesThird, addsRoot, _, growsThird⟩
      have rootNew := PageList.fetch_none_of_le grows.longer noRoot
      have rootApart : index ≠ root := PageList.ne_of_fetch placed noRoot
      have apart : sentinel ≠ root := PageList.ne_of_fetch ended noRoot
      replace placed := includesThird _ _ placed
      replace ended := includesThird _ _ ended
      replace others := others.trans includesThird.others
      replace grows := grows.trans growsThird
      apply Ends.bind ((TreeM.writePage_ends placed _).mono_error ?_)
      · rintro _ fourth ⟨stored, calm⟩
        have fresh : Fresh session.pages ⟨index, ⟨root, sentinel, 0⟩, config⟩ fourth.pages := by
          rw [stored]
          refine ⟨PageList.fetch_store_same placed, ?_, ?_, apart, sentinelNew, rootNew, ?_⟩
          · exact (PageList.fetch_store_of_ne placed sentinelApart).trans ended
          · exact (PageList.fetch_store_of_ne placed rootApart).trans rooted
          · intro other page different fetched
            rw [PageList.fetch_store_of_ne placed different.symm]
            exact others other page different fetched
        have sameLength : fourth.pages.length = third.pages.length := by
          rw [stored, PageList.length_store]
        have growsFourth : third.Grows fourth := ⟨Nat.le_of_eq sameLength.symm, calm⟩
        have adds := ((addsAnchor.trans addsSentinel).trans addsRoot).trans
          (.of_length_le (Nat.le_of_eq sameLength) : AddsOnly (fun _ => False) _ _)
        replace grows := grows.trans growsFourth
        apply Ends.bind ((TreeM.sync_consults fourth.pages fourth rfl).mono_error ?_)
        · rintro _ fifth ⟨_, still⟩
          rw [← still.pages_eq] at fresh adds
          refine ⟨fresh, rfl, rfl, rfl, adds.mono ?_,
            grows.trans (.of_still ⟨still.pages_eq, still.calm⟩)⟩
          rintro other (((isAnchor | isSentinel) | isRoot) | none)
          · exact Or.inl isAnchor
          · exact Or.inr (Or.inl isSentinel)
          · exact Or.inr (Or.inr isRoot)
          · exact none.elim
        · intro failure after fails denied
          have stormy : ¬ session.Calm := fun calm => denied.stormy (grows.calm calm)
          rw [← denied.still.pages_eq] at fresh
          exact ⟨denied.byPager, .syncing fails fresh rfl,
            Nat.le_trans grows.longer denied.still.longer.length_le,
            fun calm => absurd calm stormy, fun calm => absurd calm stormy⟩
      · intro failure after fails denied
        exact denied.rejected.unopened placed others grows
          (fun calm => absurd calm denied.stormy) (.anchoring placed fails)
    · intro failure after fails rejected
      refine rejected.unopened placed others grows (fun calm => ?_) (.appending placed fails)
      have := rejected.full calm
      omega
  · intro failure after fails rejected
    refine rejected.unopened placed others grows (fun calm => ?_) (.appending placed fails)
    have := rejected.full calm
    omega

omit [Pager σ] [AtomicPager σ] in
theorem position_call_ends {position : Nat} (known : PageIndex.position index = .ok position)
    (session : Session σ) {broken : Failure TreeError → Session σ → Prop} :
    Ends ((TreeM.call (PageIndex.position index) : TreeM σ Nat) session)
      (fun given after => given = position ∧ after = session) broken := by
  simp only [TreeM.call, TreeM.ofPager, SessionM.relabel, SessionM.onDevice]
  rw [known]
  exact ⟨rfl, rfl⟩

/-- Where there is no tree yet, opening one makes it. -/
theorem Tree.openOrCreate_ends (config : Config) {session : Session σ}
    (creatable : Creatable session.pages index) :
    Ends (Tree.openOrCreate index config session) (Opened index config session)
      (Unopened index session) := by
  have counted : Ends (TreeM.pageCount session)
      (fun count after => count = session.pages.length ∧ session.Still after)
      (Unopened index session) :=
    (Consults.pageCount session rfl).mono_error fun _ _ fails denied =>
      denied.unopened (.counting (.refl session) fails denied.still.pages_eq)
  -- Looking at the place changes nothing, so what is made is made from the session at the start.
  have creates : ∀ later : Session σ, session.Still later →
      Ends (Tree.create index config later) (Opened index config session)
        (Unopened index session) := by
    intro later still
    have creatableLater : Creatable later.pages index := by
      rw [still.pages_eq]
      exact creatable
    apply Ends.mono (Tree.create_ends config creatableLater)
    · rintro made after ⟨fresh, anchorIndex_eq, config_eq, sequence_eq, adds, grows⟩
      rw [still.pages_eq] at fresh adds
      have first := Session.Grows.of_still still
      exact ⟨fresh, anchorIndex_eq, config_eq, sequence_eq, adds, first.trans grows⟩
    · intro failure after fails
      exact still.unopened fails
  simp only [Tree.openOrCreate]
  rcases creatable with isEnd | ⟨blank, fetched, isBlank⟩
  · apply Ends.bind (position_call_ends isEnd session)
    rintro _ _ ⟨rfl, rfl⟩
    apply Ends.bind counted
    rintro _ later ⟨rfl, still⟩
    rw [if_neg (Nat.lt_irrefl _)]
    exact creates later still
  · apply Ends.bind (position_call_ends (PageList.position_eq fetched) session)
    rintro _ _ ⟨rfl, rfl⟩
    apply Ends.bind counted
    rintro _ later ⟨rfl, still⟩
    rw [if_pos (PageList.position_lt fetched)]
    have fetchedLater : fetch later.pages index = some blank := by
      rw [still.pages_eq]
      exact fetched
    apply Ends.bind ((Consults.readPage fetchedLater later rfl).mono_error ?_)
    · rintro _ last ⟨rfl, stillLast⟩
      rw [if_pos isBlank]
      exact creates last (still.trans stillLast)
    · intro failure after fails denied
      have deniedBefore := still.denied denied
      exact deniedBefore.unopened (.looking still fails deniedBefore.still.pages_eq)

/-- A tree whose anchor is there is opened with this anchor. -/
theorem Tree.openOrCreate_consults {anchor : Anchor}
    (anchored : fetch pages index = some anchor.toPage) (config : Config) :
    Consults pages (Tree.openOrCreate index config : TreeM σ Tree)
      (· = { anchorIndex := index, anchor, config }) := by
  intro session pages_eq
  have isAnchor : ¬ anchor.toPage.kind? = some .blank := by
    rw [Anchor.kind?_toPage]
    decide
  have opens : Consults pages (do
      if index.toInt.toNat < (← TreeM.pageCount) then
        let page ← TreeM.readPage index
        if page.kind? = some .blank then
          Tree.create index config
        else
          Tree.ofAnchorPage index config page
      else
        Tree.create index config : TreeM σ Tree)
      (· = { anchorIndex := index, anchor, config }) := by
    apply Consults.bind Consults.pageCount
    rintro _ rfl
    rw [if_pos (PageList.position_lt anchored)]
    apply Consults.bind (Consults.readPage anchored)
    rintro _ rfl
    rw [if_neg isAnchor]
    simp only [Tree.ofAnchorPage]
    rw [Anchor.ofPage_toPage]
    have reports : Consults pages
        (SessionM.report (.treeOpened index anchor.root anchor.sequence) : TreeM σ Unit)
        (fun _ => True) :=
      Consults.report _ trivial
    apply Consults.bind reports
    intro _ _
    exact Consults.pure rfl
  simp only [Tree.openOrCreate]
  apply Ends.bind (position_call_ends (PageList.position_eq anchored) session)
  rintro _ _ ⟨rfl, rfl⟩
  exact opens _ pages_eq

theorem Keeps.openOrCreate_consults (keeps : Keeps limit pages tree outline contents)
    (config : Config) :
    Consults pages (Tree.openOrCreate tree.anchorIndex config : TreeM σ Tree)
      (· = { tree with config }) :=
  Tree.openOrCreate_consults keeps.anchored config

/-! ## Beginning a transaction -/

namespace Transaction

/-- The transaction that begins on a tree. -/
def atStart (tree : Tree) (pages : List Page) : Transaction :=
  ⟨tree, [], PageList.nextIndex pages, tree.anchor, .active⟩

/-- A transaction begins with the tree as it is and with the next free index, and no page
changes. -/
theorem start_ends (tree : Tree) (session : Session σ) :
    Ends (start tree session)
      (fun begun after => begun = atStart tree session.pages ∧ session.Still after ∧
        session.pages.length < Word.signedLimit)
      (fun failure after => (∃ cause, failure = .error (.pager cause)) ∧ session.Still after ∧
        (session.Calm → Word.signedLimit ≤ session.pages.length)) := by
  simp only [start]
  apply Ends.bind (Ends.mono (Consults.pageCount session rfl) (fun _ _ => id)
    fun _ _ denied => ⟨denied.byPager, denied.still, fun calm => absurd calm denied.stormy⟩)
  rintro _ after ⟨rfl, still⟩
  by_cases room : session.pages.length < Word.signedLimit
  · have named : PageIndex.ofPosition session.pages.length =
        .ok (PageList.nextIndex session.pages) := if_pos room
    unfold TreeM.call TreeM.ofPager SessionM.relabel SessionM.onDevice
    rw [named]
    exact ⟨rfl, still, room⟩
  · have unnamed : PageIndex.ofPosition session.pages.length =
        .error (.outOfBounds Int64.maxValue session.pages.length) := if_neg room
    unfold TreeM.call TreeM.ofPager SessionM.relabel SessionM.onDevice
    rw [unnamed]
    exact ⟨⟨_, rfl⟩, still, fun _ => Nat.le_of_not_lt room⟩

/-- A transaction that begins maintains the tree that the pages keep. -/
theorem Maintains.of_keeps {session : Session σ}
    (keeps : Keeps limit session.pages tree outline contents)
    (room : session.pages.length < Word.signedLimit) :
    Maintains session.pages limit outline contents ⟨atStart tree session.pages, session⟩ where
  undoable := {
    room
    fresh := rfl
    longer := Nat.le_refl _
    kept := fun _ _ fetched _ => fetched
    copied := by simp [atStart]
    beyond := by simp [atStart]
    once := List.nodup_nil
    apart := List.nodup_nil }
  keeps
  anchorOwn := by simp [atStart]
  own := by simp [atStart]

end Transaction

end PagedMap
