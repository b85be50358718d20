import PagedMap.Proofs.Pager.Stopping
import PagedMap.Proofs.Tree.Aborting

/-!
# Writing an entry is never seen half done

Writing an entry may take many writes of pages, and it may stop between any two of them. Whatever
point it stops at, the pages store a tree from which no link dangles, and its leaves have the
entries from before or these with the new one. A new page is always written before a page that links
to it, and an entry is there from the moment on at which its leaf is overwritten.
-/

namespace PagedMap

open PageList (fetch)

/-- Pages store contents: an anchor page names a root from which no link dangles. Whoever opens the
tree on such pages and walks along its leaves, from the first one to the sentinel, finds every
entry once and in the order of the keys. -/
structure Stores (index : PageIndex) (pages : List Page) (contents : Contents) : Prop where
  found : ∃ (anchor : Anchor) (entries : List Entry), Connected pages anchor ∧
    Lists contents entries ∧
    ∀ (τ : Type) [Pager τ] [AtomicPager τ] (config : Config),
      Consults pages (Tree.openOrCreate index config : TreeM τ Tree) (· = ⟨index, anchor, config⟩) ∧
      ∀ most, Consults pages (Tree.entries ⟨index, anchor, config⟩ most : TreeM τ (List Entry))
        (· = entries.take most)

/-- Writing an entry is all or nothing, wherever it stops and before anything is undone. -/
structure Undivided {σ : Type} [Pager σ] [AtomicPager σ] (index : PageIndex) (contents : Contents)
    (key value : Bytes) (holding : Holding Transaction σ) : Prop where
  before : Stores index holding.session.pages contents
  between : key.length ≤ maxKeySize → ∀ calls,
    Stores index (stopAfter calls (Transaction.put key value) holding).session.pages contents ∨
      Stores index (stopAfter calls (Transaction.put key value) holding).session.pages
        (contents.insert key value)
  after : ∀ after, Transaction.insert key value holding = .ok () after →
    Stores index after.session.pages (contents.insert key value)
  refused : maxKeySize < key.length → Transaction.insert key value holding =
    .error (.error (.keyTooLarge key.length maxKeySize)) holding

variable {σ : Type} [Pager σ] [AtomicPager σ] {base pages : List Page} {limit : Nat}
  {outline : Outline} {contents : Contents} {index : PageIndex} {anchor : Anchor}
  {holding before after : Holding Transaction σ} {key value : Bytes}

theorem Retains.stores (retains : Retains limit pages anchor outline contents)
    (anchored : fetch pages index = some anchor.toPage) : Stores index pages contents := by
  refine ⟨anchor, outline.entries contents, retains.connected, ?_, ?_⟩
  · exact retains.means.lists retains.shelf.ordered.ascending
  · intro τ _ _ config
    have opened : Retains limit pages (Tree.mk index anchor config).anchor outline contents :=
      retains
    exact ⟨Tree.openOrCreate_consults anchored config, opened.entries_consults⟩

namespace Transaction

theorem Maintains.serving (maintains : Maintains base limit outline contents holding)
    (calls : Nat) : Maintains base limit outline contents (holding.serving calls) :=
  ⟨maintains.undoable, maintains.keeps, maintains.anchorOwn, maintains.own⟩

theorem Survives.stores (survives : Survives base limit outline contents before after) :
    Stores before.held.tree.anchorIndex after.session.pages contents := by
  rcases survives.stored with ⟨anchor, fetched, bears⟩
  rcases bears.retains with ⟨later, retains, _⟩
  rw [survives.advances.anchorIndex_eq] at fetched
  exact retains.stores fetched

/-- At every point of writing an entry the contents from before survive, or those with the entry. -/
theorem Maintains.stopped (maintains : Maintains base limit outline contents holding)
    (bounded : limit ≤ 255) (roomy : holding.held.tree.config.maxEntries ≤ limit)
    (short : key.length ≤ maxKeySize) (addressable : value.length < Word.signedLimit)
    (calls : Nat) :
    EitherSurvives base limit outline contents key value (holding.serving calls)
      (stopAfter calls (put key value) holding) := by
  have ends : Ends (put key value (holding.serving calls))
      (fun _ point => EitherSurvives base limit outline contents key value (holding.serving calls)
        point)
      (fun _ point => EitherSurvives base limit outline contents key value (holding.serving calls)
        point) := by
    apply Ends.mono (put_ends (maintains.serving calls) bounded roomy short addressable)
    · intro _ point entered
      exact Or.inr entered.continues.survives
    · intro failure point interrupted
      exact interrupted.survives
  exact lastState_of_ends ends

/-- At every point of an insertion the stored tree contains what it did before, or that with the new
entry. -/
theorem Maintains.undivided (maintains : Maintains base limit outline contents holding)
    (active : holding.held.phase = .active) (bounded : limit ≤ 255)
    (roomy : holding.held.tree.config.maxEntries ≤ limit) (key : Bytes) (value : Addressable) :
    Undivided holding.held.tree.anchorIndex contents key value.val holding where
  before := maintains.keeps.retains.stores maintains.keeps.anchored
  between short calls :=
    (maintains.stopped bounded roomy short value.2 calls).imp Survives.stores Survives.stores
  after after inserts := by
    by_cases short : key.length ≤ maxKeySize
    · have ends := insert_ends maintains active bounded roomy short value.2
      exact (ends.of_ok inserts).continues.survives.stores
    · rw [insert_eq_of_long active (Nat.lt_of_not_le short)] at inserts
      contradiction
  refused long := insert_eq_of_long active long value.val

end Transaction

/-- In a transaction on a tree that can be reached, writing an entry leaves the tree in order
wherever it stops: no link dangles, and the leaves have the entries from before or these with the
new one. -/
theorem put_undivided {session opened : Session σ} {tree : Tree} {begun : Transaction}
    (reachable : Reachable session tree)
    (starts : Transaction.start tree session = .ok begun opened) (calls : List Call)
    (active : (Call.leaveAll calls ⟨begun, opened⟩).held.phase = .active) (key : Bytes)
    (value : Addressable) :
    ∃ contents, Undivided tree.anchorIndex contents key value.val
      (Call.leaveAll calls ⟨begun, opened⟩) := by
  rcases reachable.keeps with ⟨_, _, keeps⟩
  have stands := (keeps.stands starts).calls calls active
  rcases stands.maintains with ⟨outline, contents, maintains⟩
  refine ⟨contents, ?_⟩
  rw [← stands.treeBefore_eq]
  exact maintains.undivided active (Nat.le_refl _) (Config.maxEntries_le _) key value

/-- Leaves with at most three entries. -/
def leastFanout : Config := { fanout := 4 }

/-- In an empty memory three entries fill the root of a tree, and the fourth one splits it. -/
theorem put_undivided_memory :
    ∃ (tree : Tree) (session opened : Session Memory) (begun : Transaction) (contents : Contents),
      Tree.openOrCreate 0 leastFanout ⟨⟨[]⟩, []⟩ = .ok tree session ∧
      Transaction.start tree session = .ok begun opened ∧
      Undivided tree.anchorIndex contents [4] [4]
        (Call.leaveAll [.insert [1] ⟨[1], by decide⟩, .insert [2] ⟨[2], by decide⟩,
          .insert [3] ⟨[3], by decide⟩] ⟨begun, opened⟩) := by
  let calls : List Call := [.insert [1] ⟨[1], by decide⟩, .insert [2] ⟨[2], by decide⟩,
    .insert [3] ⟨[3], by decide⟩]
  have runs : Ends (Tree.openOrCreate 0 leastFanout (⟨⟨[]⟩, []⟩ : Session Memory))
      (fun tree session => Ends (Transaction.start tree session)
        (fun begun opened => (Call.leaveAll calls ⟨begun, opened⟩).held.phase = .active)
        (fun _ _ => False))
      (fun _ _ => False) := by
    decide +kernel
  rcases runs.exists_ok (fun _ _ => id) with ⟨tree, session, opens, begins⟩
  rcases begins.exists_ok (fun _ _ => id) with ⟨begun, opened, starts, active⟩
  have reachable := Reachable.made (Or.inl rfl) opens
  rcases put_undivided reachable starts calls active [4] ⟨[4], by decide⟩ with
    ⟨contents, undivided⟩
  exact ⟨tree, session, opened, begun, contents, opens, starts, undivided⟩

end PagedMap
