import PagedMap.Proofs.Tree.Aborting
import PagedMap.Proofs.Tree.Guiding

/-!
# Lookups after an incomplete undo

When a transaction gives up, the anchor in memory is what it was when it began, but the pager may
fail before all copies are written back. A page that was overwritten and not brought back may still
link to pages that the transaction appended, and a lookup that comes to it goes on to them. There is
no other way to the appended pages: if all copies are written back, none of them is ever read.
-/

namespace PagedMap

open PageList (fetch)

variable {σ : Type} [Pager σ] [AtomicPager σ] {tree : Tree}

/-- Whether a question looks entries up and does nothing else. -/
def Question.LooksUp : Question → Prop
  | .get? _ | .contains _ | .entries _ | .size => True
  | .reopen _ | .start => False

/-- Looking something up reads a page that was not there only after one that was altered. -/
theorem Keeps.lookup_excused {limit : Nat} {base : List Page} {outline : Outline}
    {contents : Contents} (keeps : Keeps limit base tree outline contents) {question : Question}
    (looksUp : question.LooksUp) (session : Session σ) (longer : base.length ≤ session.pages.length) :
    Excused base session.pages (question.leaves tree session.watched).device.reads := by
  have excused : ∀ {α : Type} {action : TreeM (Watching σ) α} {guide : TreeM Memory α}
      {found : α → Prop}, Guided base action guide → Consults base guide found →
      Excused base session.pages (lastState (action session.watched)).device.reads := by
    intro α action guide found guided consults
    rcases (consults (⟨⟨base⟩, []⟩ : Session Memory) rfl).exists_ok
      (fun _ _ denied => denied.stormy trivial) with ⟨value, after, guides, _⟩
    rcases guided.follows session.watched _ after value longer rfl guides with
      ⟨_, seen, looks, excused, _⟩
    rw [looks.reads_of_watched]
    exact excused
  cases question with
  | get? key => exact excused (tree.get?_guided key) (keeps.get?_consults key)
  | contains key => exact excused (tree.contains_guided key) (keeps.contains_consults key)
  | entries most => exact excused (tree.entries_guided most) (keeps.retains.entries_consults most)
  | size => exact excused tree.size_guided keeps.retains.size_consults
  | reopen config => exact looksUp.elim
  | start => exact looksUp.elim

variable {session opened : Session σ} {begun : Transaction} {middle after : Holding Transaction σ}

/-- However a transaction gives up, the anchor in memory is what it was. A lookup reads an appended
page only after it has read a page that the transaction had overwritten and that was not brought
back, and if all copies are written back it never does. -/
theorem lookups_excused (calls : List Call) (reachable : Reachable session tree)
    (starts : Transaction.start tree session = .ok begun opened)
    (active : (Call.leaveAll calls ⟨begun, opened⟩).held.phase = .active)
    (givesUp : GivesUp (Call.leaveAll calls ⟨begun, opened⟩) middle after) :
    after.held.tree = tree ∧ ∀ question : Question, question.LooksUp →
      ∀ front index back,
        (question.leaves after.held.tree after.session.watched).device.reads =
          front ++ index :: back →
        begun.freshFrom ≤ index →
          ¬ Transaction.CopiesBack middle ∧ ∃ other ∈ front,
            middle.held.shadows.covers other = true ∧
              Altered session.pages after.session.pages other := by
  rcases reachable.keeps with ⟨outline, contents, keeps⟩
  have givenUp := ((keeps.stands starts).calls calls active).givenUp givesUp
  have tree_eq := ((keeps.stands starts).calls calls active).treeBack givesUp
  have longer : session.pages.length ≤ after.session.pages.length := by
    rw [givenUp.aborted.length_eq]
    exact givenUp.undoable.longer
  rcases (Transaction.start_ends tree session).of_ok starts with ⟨rfl, _, room⟩
  refine ⟨tree_eq, ?_⟩
  rw [tree_eq]
  intro question looksUp front index back split fresh
  have missing : fetch session.pages index = none := by
    have position := PageList.toInt_nextIndex room
    have beyond := Int64.le_iff_toInt_le.mp fresh
    exact PageList.fetch_eq_none.mpr (Or.inr (position ▸ beyond))
  rcases keeps.lookup_excused looksUp after.session longer front index back split missing with
    ⟨other, member, page, inBase, altered⟩
  refine ⟨fun copies => altered (givenUp.aborted.includes copies other page inBase),
    other, member, ?_, page, inBase, altered⟩
  apply Bool.of_not_eq_false
  intro uncovered
  have stillThere := givenUp.undoable.kept other page inBase uncovered
  exact altered (givenUp.aborted.uncovered other page stillThere uncovered)

/-- An empty memory behind a pager that lets thirteen writes pass and makes the next one fail. -/
def fourteenthWriteFails : Session (Faulty Memory) := ⟨(Faulty.wrap ⟨[]⟩ 0).failWriteAfter 13, []⟩

/-- Going through a tree reads page 2, the old root, and then page 4, which a transaction appended
behind page 3, the first of its own, before it was given up. -/
def Misled (begun : Transaction) (after : Holding Transaction (Faulty Memory)) : Prop :=
  begun.freshFrom = 3 ∧
    (Question.leaves (.entries 2) after.held.tree after.session.watched).device.reads = [2, 4]

instance (begun : Transaction) (after : Holding Transaction (Faulty Memory)) :
    Decidable (Misled begun after) :=
  inferInstanceAs (Decidable (_ ∧ _))

/-- In a new tree, a transaction divides the only leaf and is rolled back, but the fourteenth write
is that of the first copy. The leaf still links to the new one. -/
theorem fourteenthWriteFails_misled :
    Ends (Tree.openOrCreate 0 fourChildren fourteenthWriteFails)
      (fun tree session => Ends (Transaction.start tree session)
        (fun begun opened =>
          (Call.leaveAll ([97, 98, 99, 100].map insertByte) ⟨begun, opened⟩).held.phase = .active ∧
          Misled begun (lastState (Transaction.rollback
            (Call.leaveAll ([97, 98, 99, 100].map insertByte) ⟨begun, opened⟩))))
        (fun _ _ => False))
      (fun _ _ => False) := by
  decide +kernel

/-- Going through the tree reads a new leaf after the divided one, which was not brought back. -/
theorem lookups_excused_faulty :
    ∃ (tree : Tree) (session opened : Session (Faulty Memory)) (begun : Transaction)
      (after : Holding Transaction (Faulty Memory)),
      Tree.openOrCreate 0 fourChildren fourteenthWriteFails = .ok tree session ∧
      Transaction.start tree session = .ok begun opened ∧
      after = lastState (Transaction.rollback
        (Call.leaveAll ([97, 98, 99, 100].map insertByte) ⟨begun, opened⟩)) ∧
      after.held.tree = tree ∧ Altered session.pages after.session.pages 2 := by
  rcases fourteenthWriteFails_misled.exists_ok (fun _ _ => id) with
    ⟨tree, session, opens, begins⟩
  rcases begins.exists_ok (fun _ _ => id) with ⟨begun, opened, starts, active, fresh, reads⟩
  have excused := lookups_excused _ (Reachable.made (Or.inl rfl) opens) starts active
    GivesUp.rollback
  refine ⟨tree, session, opened, begun, _, opens, starts, rfl, excused.1, ?_⟩
  have isFresh : begun.freshFrom ≤ 4 := by
    rw [fresh]
    decide
  rcases (excused.2 (.entries 2) trivial [2] 4 [] reads isFresh).2 with
    ⟨other, member, _, altered⟩
  rw [List.mem_singleton.mp member] at altered
  exact altered

/-- Resetting the anchor in memory is not enough to keep lookups from appended pages. -/
theorem lookups_misled :
    ∃ (tree : Tree) (session opened : Session (Faulty Memory)) (begun : Transaction)
      (middle after : Holding Transaction (Faulty Memory)) (question : Question),
      Reachable session tree ∧ Transaction.start tree session = .ok begun opened ∧
      (Call.leaveAll ([97, 98, 99, 100].map insertByte) ⟨begun, opened⟩).held.phase = .active ∧
      GivesUp (Call.leaveAll ([97, 98, 99, 100].map insertByte) ⟨begun, opened⟩) middle after ∧
      question.LooksUp ∧ after.held.tree = tree ∧
      ∃ index ∈ (question.leaves after.held.tree after.session.watched).device.reads,
        begun.freshFrom ≤ index := by
  rcases fourteenthWriteFails_misled.exists_ok (fun _ _ => id) with
    ⟨tree, session, opens, begins⟩
  rcases begins.exists_ok (fun _ _ => id) with ⟨begun, opened, starts, active, fresh, reads⟩
  have reachable := Reachable.made (Or.inl rfl) opens
  rcases reachable.keeps with ⟨outline, contents, keeps⟩
  have stands := (keeps.stands starts).calls _ active
  refine ⟨tree, session, opened, begun, _, _, .entries 2, reachable, starts, active,
    GivesUp.rollback, trivial, stands.treeBack GivesUp.rollback, 4, ?_, ?_⟩
  · rw [reads]
    decide
  · rw [fresh]
    decide

end PagedMap
