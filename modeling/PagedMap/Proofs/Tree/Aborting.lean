import PagedMap.Proofs.Pager.Faults
import PagedMap.Proofs.Tree.Answering
import PagedMap.Proofs.Tree.Calls
import PagedMap.Proofs.Tree.Committing
import PagedMap.Proofs.Tree.Opening

/-!
# An abort brings everything back

Any call of the pager may fail, at any point of a transaction. However the transaction then ends
without a commit, it leaves no trace if its copies can be written back: the pages from before it,
the anchor in memory and the answers of the tree are what they were when it began, and the
transaction is closed. This holds for every tree that can be reached by such transactions.
-/

namespace PagedMap

open PageList (fetch)
open HoldingM (within)

variable {σ : Type} [Pager σ]

/-! ## Transactions under way -/

/-- What a call leaves behind, whether it succeeds or fails. -/
def Call.leaves (call : Call) (holding : Holding Transaction σ) : Holding Transaction σ :=
  lastState (call.perform holding)

/-- What calls leave behind, one after the other. -/
def Call.leaveAll (calls : List Call) (holding : Holding Transaction σ) : Holding Transaction σ :=
  calls.foldl (fun holding call => call.leaves holding) holding

/-- The ways in which a transaction ends without a commit. The state in the middle is the one from
which it is undone. -/
inductive GivesUp (before : Holding Transaction σ) :
    Holding Transaction σ → Holding Transaction σ → Prop where
  /-- The pager fails while a key is being inserted. -/
  | insert {key : Bytes} {value : Addressable} {cause : PagerError}
      {middle after : Holding Transaction σ}
      (fails : Transaction.put key value.val before = .error (.error (.pager cause)) middle)
      (ended : Transaction.insert key value.val before = .error (.error (.pager cause)) after) :
      GivesUp before middle after
  /-- A commit fails. -/
  | commit {failure : Failure TreeError} {middle after : Holding Transaction σ}
      (fails : Transaction.makeDurable before = .error failure middle)
      (ended : Transaction.commit before = .error failure after) : GivesUp before middle after
  /-- The transaction is rolled back. -/
  | rollback : GivesUp before before (lastState (Transaction.rollback before))
  /-- The transaction is dropped. -/
  | drop : GivesUp before before (lastState (Transaction.drop before))

/-! ## Closed transactions -/

/-- A transaction that is closed refuses everything but a copy or a drop, and nothing changes. -/
structure Closed (holding : Holding Transaction σ) : Prop where
  insert : ∀ key value,
    Transaction.insert key value holding = .error (.error .transactionClosed) holding
  get? : ∀ key, Transaction.get? key holding = .error (.error .transactionClosed) holding
  contains : ∀ key, Transaction.contains key holding = .error (.error .transactionClosed) holding
  erase : ∀ key, Transaction.erase key holding = .error (.error .transactionClosed) holding
  commit : Transaction.commit holding = .error (.error .transactionClosed) holding
  rollback : Transaction.rollback holding = .error (.error .transactionClosed) holding

theorem closed_of_ended {holding : Holding Transaction σ} (ended : holding.held.phase ≠ .active) :
    Closed holding := by
  have refuses : ∀ {α : Type} (next : Unit → TransactionM σ α),
      (Transaction.requireActive >>= next) holding =
        .error (.error .transactionClosed) holding := by
    intro α next
    exact bind_eq_of_error (Transaction.requireActive_closed ended) next
  exact ⟨fun _ _ => refuses _, fun _ => refuses _, fun _ => refuses _, fun _ => refuses _,
    refuses _, refuses _⟩

theorem active_of_commit {holding after : Holding Transaction σ}
    (commits : Transaction.commit holding = .ok () after) : holding.held.phase = .active := by
  apply Decidable.byContradiction
  intro ended
  rw [(closed_of_ended ended).commit] at commits
  contradiction

/-! ## Trees that can be reached -/

/-- What may be done with a tree between two transactions and may fail. -/
inductive Question where
  | get? (key : Bytes)
  | contains (key : Bytes)
  | entries (most : Nat)
  | size
  | reopen (config : Config)
  | start

/-- What a question leaves behind, whether it is answered or not. -/
def Question.leaves (question : Question) (tree : Tree) (session : Session σ) : Session σ :=
  match question with
  | .get? key => lastState (tree.get? key session)
  | .contains key => lastState (tree.contains key session)
  | .entries most => lastState (tree.entries most session)
  | .size => lastState (tree.size session)
  | .reopen config => lastState (Tree.openOrCreate tree.anchorIndex config session)
  | .start => lastState (Transaction.start tree session)

variable [AtomicPager σ]

/-- The trees that can be reached: a tree is made, and then opened again, asked and changed by
transactions. Any call of the pager may fail on the way, but if a transaction gives up, its copies
are written back. -/
inductive Reachable : Session σ → Tree → Prop where
  | made {index : PageIndex} {config : Config} {tree : Tree} {session after : Session σ}
      (creatable : Creatable session.pages index)
      (opens : Tree.openOrCreate index config session = .ok tree after) : Reachable after tree
  | reopened {config : Config} {tree later : Tree} {session after : Session σ}
      (reachable : Reachable session tree)
      (opens : Tree.openOrCreate tree.anchorIndex config session = .ok later after) :
      Reachable after later
  | asked {tree : Tree} {session : Session σ} (reachable : Reachable session tree)
      (question : Question) : Reachable (question.leaves tree session) tree
  | committed {tree : Tree} {session opened : Session σ} {begun : Transaction}
      {calls : List Call} {after : Holding Transaction σ} (reachable : Reachable session tree)
      (starts : Transaction.start tree session = .ok begun opened)
      (commits : Transaction.commit (Call.leaveAll calls ⟨begun, opened⟩) = .ok () after) :
      Reachable after.session after.held.tree
  | gaveUp {tree : Tree} {session opened : Session σ} {begun : Transaction}
      {calls later : List Call} {middle after : Holding Transaction σ}
      (reachable : Reachable session tree)
      (starts : Transaction.start tree session = .ok begun opened)
      (active : (Call.leaveAll calls ⟨begun, opened⟩).held.phase = .active)
      (givesUp : GivesUp (Call.leaveAll calls ⟨begun, opened⟩) middle after)
      (copies : Transaction.CopiesBack middle) :
      Reachable (Call.leaveAll later after).session (Call.leaveAll later after).held.tree

/-! ## Standing transactions -/

variable {holding before middle after : Holding Transaction σ} {base : List Page} {tree : Tree}

/-- A transaction is under way that began on a tree, and it can be undone. -/
structure Stands (base : List Page) (tree : Tree) (holding : Holding Transaction σ) : Prop where
  maintains : ∃ outline contents, Transaction.Maintains base 255 outline contents holding
  active : holding.held.phase = .active
  treeBefore_eq : holding.held.treeBefore = tree
  sequence_eq : holding.held.tree.anchor.sequence = tree.anchor.sequence

theorem Stands.goesOn (stands : Stands base tree before) {contents : Contents} {outline : Outline}
    (continues : Transaction.Continues base 255 outline contents before after) :
    Stands base tree after := by
  rcases continues.maintains with ⟨later, maintains, _⟩
  exact ⟨⟨later, contents, maintains⟩, continues.advances.phase_eq.trans stands.active,
    continues.advances.treeBefore_eq.trans stands.treeBefore_eq,
    continues.sequence_eq.trans stands.sequence_eq⟩

/-- After a call a transaction goes on, or it has ended. -/
theorem Transaction.Maintains.leaves {outline : Outline} {contents : Contents}
    (maintains : Transaction.Maintains base 255 outline contents holding)
    (active : holding.held.phase = .active) (call : Call) :
    (∃ now, Transaction.Continues base 255 outline now holding (call.leaves holding)) ∨
      (call.leaves holding).held.phase ≠ .active := by
  have ends : Ends (call.perform holding)
      (fun _ after => (∃ now, Transaction.Continues base 255 outline now holding after) ∨
        after.held.phase ≠ .active)
      (fun _ after => (∃ now, Transaction.Continues base 255 outline now holding after) ∨
        after.held.phase ≠ .active) := by
    apply Ends.mono (call.perform_ends maintains active (Nat.le_refl _)
      holding.held.tree.config.maxEntries_le)
    · intro _ after continues
      exact Or.inl ⟨_, continues⟩
    · rintro failure after ⟨_, continues | ⟨middle, givenUp, _⟩⟩
      · exact Or.inl ⟨_, continues⟩
      · exact Or.inr givenUp.aborted.ended
  exact lastState_of_ends ends

theorem Stands.call (stands : Stands base tree holding) (call : Call) :
    Stands base tree (call.leaves holding) ∨ (call.leaves holding).held.phase ≠ .active := by
  rcases stands.maintains with ⟨outline, contents, maintains⟩
  rcases maintains.leaves stands.active call with ⟨now, continues⟩ | ended
  · exact Or.inl (stands.goesOn continues)
  · exact Or.inr ended

/-- A call on a transaction that has ended is refused, or it copies a page. -/
theorem call_ended (ended : holding.held.phase ≠ .active) (call : Call) :
    Transaction.Extended holding (call.leaves holding) := by
  have closed := closed_of_ended ended
  have refused : ∀ {α : Type} {action : TransactionM σ α},
      action holding = .error (.error .transactionClosed) holding →
        Transaction.Extended holding (lastState (action holding)) := by
    intro α action refuses
    rw [refuses]
    exact ⟨rfl, rfl, List.prefix_refl _⟩
  cases call with
  | insert key value => exact refused (closed.insert key value.val)
  | get? key => exact refused (bind_eq_of_error (closed.get? key) _)
  | contains key => exact refused (bind_eq_of_error (closed.contains key) _)
  | erase key => exact refused (closed.erase key)
  | shadow index =>
      apply lastState_of_ends
      apply Ends.mono (Transaction.shadow_extends index holding)
      · rintro _ after ⟨extended, _⟩
        exact extended
      · rintro failure _ ⟨_, session, rfl, longer, _⟩
        exact ⟨rfl, rfl, longer⟩

/-- Calls after the end of a transaction leave the tree and the pages that are there as they are. -/
theorem calls_ended (ended : holding.held.phase ≠ .active) (calls : List Call) :
    Transaction.Extended holding (Call.leaveAll calls holding) := by
  induction calls generalizing holding with
  | nil => exact ⟨rfl, rfl, List.prefix_refl _⟩
  | cons call rest ih =>
      have first := call_ended ended call
      have endedLater : (call.leaves holding).held.phase ≠ .active := by
        rw [first.phase_eq]
        exact ended
      have others := ih endedLater
      exact ⟨others.tree_eq.trans first.tree_eq, others.phase_eq.trans first.phase_eq,
        first.longer.trans others.longer⟩

/-- What every call keeps unless it ends the transaction holds after all calls, if the transaction
is still under way. -/
theorem calls_keep {property : Holding Transaction σ → Prop}
    (step : ∀ {holding}, property holding → ∀ call : Call,
      property (call.leaves holding) ∨ (call.leaves holding).held.phase ≠ .active)
    (holds : property holding) (calls : List Call)
    (active : (Call.leaveAll calls holding).held.phase = .active) :
    property (Call.leaveAll calls holding) := by
  induction calls generalizing holding with
  | nil => exact holds
  | cons call rest ih =>
      rcases step holds call with still | ended
      · exact ih still active
      · have later := (calls_ended ended rest).phase_eq
        exact absurd (later.symm.trans active) ended

/-- Calls after which the transaction is under way left it standing all the time. -/
theorem Stands.calls (stands : Stands base tree holding) (calls : List Call)
    (active : (Call.leaveAll calls holding).held.phase = .active) :
    Stands base tree (Call.leaveAll calls holding) :=
  calls_keep Stands.call stands calls active

/-! ## Giving up -/

/-- A transaction that gives up is undone from the state in the middle. -/
theorem Stands.givenUp (stands : Stands base tree before) (givesUp : GivesUp before middle after) :
    Transaction.GivenUp base before middle after := by
  rcases stands.maintains with ⟨outline, contents, maintains⟩
  have undoable := maintains.undoable
  have advances : Transaction.Advances (fun _ => True) before before :=
    (Transaction.Advances.refl before).of_untouched
  cases givesUp with
  | @insert key value cause middle after fails ended =>
      have short : key.length ≤ maxKeySize := by
        apply Nat.le_of_not_lt
        intro long
        rw [Transaction.insert_eq_of_long stands.active long] at ended
        injection ended with isError
        cases isError
      have inserts := Transaction.insert_ends maintains stands.active (Nat.le_refl _)
        before.held.tree.config.maxEntries_le short value.2
      rcases inserts.of_error ended with ⟨_, other, same, givenUp, _⟩
      rw [fails] at same
      injection same with _ middle_eq
      rw [middle_eq]
      exact givenUp
  | commit fails ended =>
      rcases (Transaction.commit_ends maintains stands.active).of_error ended with
        ⟨other, same, givenUp, _⟩
      rw [fails] at same
      injection same with _ middle_eq
      rw [middle_eq]
      exact givenUp
  | rollback =>
      refine ⟨advances, undoable, ?_⟩
      apply lastState_of_ends
      exact (Transaction.rollback_ends undoable stands.active).mono (fun _ _ => id)
        fun _ _ => And.left
  | drop =>
      refine ⟨advances, undoable, ?_⟩
      apply lastState_of_ends
      exact (Transaction.drop_ends undoable stands.active).mono (fun _ _ => id)
        fun _ _ => False.elim

theorem Stands.treeBack (stands : Stands base tree before) (givesUp : GivesUp before middle after) :
    after.held.tree = tree := by
  have givenUp := stands.givenUp givesUp
  rw [givenUp.aborted.held_eq]
  exact givenUp.advances.treeBefore_eq.trans stands.treeBefore_eq

theorem Stands.restored (stands : Stands base tree before) (givesUp : GivesUp before middle after)
    (copies : Transaction.CopiesBack middle) :
    Includes base after.session.pages ∧ after.held.tree = tree ∧ after.held.phase ≠ .active := by
  have givenUp := stands.givenUp givesUp
  exact ⟨givenUp.aborted.includes copies, stands.treeBack givesUp, givenUp.aborted.ended⟩

theorem Keeps.stands {session opened : Session σ} {begun : Transaction} {outline : Outline}
    {contents : Contents} (keeps : Keeps 255 session.pages tree outline contents)
    (starts : Transaction.start tree session = .ok begun opened) :
    Stands session.pages tree ⟨begun, opened⟩ := by
  rcases (Transaction.start_ends tree session).of_ok starts with ⟨rfl, still, room⟩
  have maintains := (Transaction.Maintains.of_keeps keeps room).of_still still
  exact ⟨⟨outline, contents, maintains⟩, rfl, rfl, rfl⟩

section

variable {session opened : Session σ} {begun : Transaction} {outline : Outline}
  {contents : Contents} {calls : List Call}

/-- After a commit the pages keep some tree again, and its commit number is the next one. -/
theorem Keeps.committed (keeps : Keeps 255 session.pages tree outline contents)
    (starts : Transaction.start tree session = .ok begun opened)
    (commits : Transaction.commit (Call.leaveAll calls ⟨begun, opened⟩) = .ok () after) :
    (∃ outline contents, Keeps 255 after.session.pages after.held.tree outline contents) ∧
      after.held.tree.anchor.sequence.toNat = tree.anchor.sequence.toNat + 1 := by
  have active := active_of_commit commits
  have stands := (keeps.stands starts).calls calls active
  rcases stands.maintains with ⟨outlineAfter, contentsAfter, maintains⟩
  have committed := (Transaction.commit_ends maintains active).of_ok commits
  refine ⟨⟨outlineAfter, contentsAfter, committed.keeps⟩, ?_⟩
  rw [committed.sequence_eq, stands.sequence_eq]

/-- After a transaction that gave up and copied everything back, the pages keep the tree from
before, also when calls follow. -/
theorem Keeps.gaveUp (keeps : Keeps 255 session.pages tree outline contents)
    (starts : Transaction.start tree session = .ok begun opened)
    (active : (Call.leaveAll calls ⟨begun, opened⟩).held.phase = .active)
    (givesUp : GivesUp (Call.leaveAll calls ⟨begun, opened⟩) middle after)
    (copies : Transaction.CopiesBack middle) (later : List Call) :
    Keeps 255 (Call.leaveAll later after).session.pages tree outline contents ∧
      (Call.leaveAll later after).held.tree = tree := by
  have stands := (keeps.stands starts).calls calls active
  rcases stands.restored givesUp copies with ⟨includes, tree_eq, ended⟩
  have extended := calls_ended ended later
  exact ⟨(keeps.keep includes).keep (includes_of_longer extended.longer),
    extended.tree_eq.trans tree_eq⟩

end

/-- No question changes a page, whatever it is and whether or not it is answered. -/
theorem Keeps.asked {session : Session σ} {outline : Outline} {contents : Contents}
    (keeps : Keeps 255 session.pages tree outline contents) (question : Question) :
    session.Still (question.leaves tree session) := by
  have consulted : ∀ {α : Type} {asked : TreeM σ α} {found : α → Prop},
      Consults session.pages asked found → session.Still (lastState (asked session)) := by
    intro α asked found consults
    apply lastState_of_ends
    exact (consults session rfl).mono (fun _ _ => And.right) fun _ _ denied => denied.still
  cases question with
  | get? key => exact consulted (keeps.get?_consults key)
  | contains key => exact consulted (keeps.contains_consults key)
  | entries most => exact consulted (keeps.retains.entries_consults most)
  | size => exact consulted keeps.retains.size_consults
  | reopen config => exact consulted (keeps.openOrCreate_consults config)
  | start =>
      apply lastState_of_ends
      exact (Transaction.start_ends tree session).mono (fun _ _ fine => fine.2.1)
        fun _ _ fails => fails.2.1

/-- The pages keep every tree that can be reached. -/
theorem Reachable.keeps {session : Session σ} (reachable : Reachable session tree) :
    ∃ outline contents, Keeps 255 session.pages tree outline contents := by
  induction reachable with
  | @made index config tree session after creatable opens =>
      have opened := (Tree.openOrCreate_ends config creatable).of_ok opens
      exact ⟨_, _, opened.fresh.keeps⟩
  | @reopened config tree later session after _ opens ih =>
      rcases ih with ⟨outline, contents, keeps⟩
      rcases (keeps.openOrCreate_consults config session rfl).of_ok opens with ⟨rfl, still⟩
      refine ⟨outline, contents, ?_⟩
      rw [still.pages_eq]
      exact { keeps with }
  | asked _ question ih =>
      rcases ih with ⟨outline, contents, keeps⟩
      refine ⟨outline, contents, ?_⟩
      rw [(keeps.asked question).pages_eq]
      exact keeps
  | committed _ starts commits ih =>
      rcases ih with ⟨outline, contents, keeps⟩
      exact (keeps.committed starts commits).1
  | @gaveUp _ _ _ _ _ later _ _ _ starts active givesUp copies ih =>
      rcases ih with ⟨outline, contents, keeps⟩
      rcases keeps.gaveUp starts active givesUp copies later with ⟨kept, tree_eq⟩
      rw [tree_eq]
      exact ⟨outline, contents, kept⟩

/-! ## All is as before -/

theorem prefix_of_includes {pages later : List Page} (room : pages.length < Word.signedLimit)
    (includes : Includes pages later) : pages <+: later := by
  apply List.prefix_iff_getElem?.mpr
  intro position inside
  have nonnegative : (Int64.ofNat position).toInt = position :=
    Int64.toInt_ofNat_of_lt (Nat.lt_trans inside room)
  have there : fetch pages (Int64.ofNat position) = some pages[position] := by
    apply PageList.fetch_eq_some.mpr
    rw [nonnegative]
    exact ⟨Int.natCast_nonneg _, List.getElem?_eq_getElem inside⟩
  have stillThere := (PageList.fetch_eq_some.mp (includes _ _ there)).2
  rw [nonnegative] at stillThere
  exact stillThere

/-- A transaction has left no trace: the pages from before it and the anchor are as they were, the
tree tells what it told, and the transaction is closed. -/
structure Restored (session : Session σ) (tree : Tree) (after : Holding Transaction σ) : Prop where
  longer : session.pages <+: after.session.pages
  tree_eq : after.held.tree = tree
  tells : ∃ contents, tree.Tells σ contents session.pages ∧
    after.held.tree.Tells σ contents after.session.pages
  closed : Closed after

/-- A call that fails for another reason than the pager leaves a transaction as it is. -/
structure Steadfast (holding : Holding Transaction σ) : Prop where
  active : holding.held.phase = .active
  insert : ∀ (key : Bytes) (value : Addressable) error after,
    Transaction.insert key value.val holding = .error (.error error) after →
      error.isPagerFailure = false → after = holding
  erase : ∀ key error after, Transaction.erase key holding = .error (.error error) after →
    error.isPagerFailure = false ∧ after = holding

/-- Every transaction on a tree that is kept is steadfast. -/
theorem Stands.steadfast (stands : Stands base tree holding) : Steadfast holding where
  active := stands.active
  insert := by
    intro key value error after fails otherwise
    rcases stands.maintains with ⟨outline, contents, maintains⟩
    by_cases short : key.length ≤ maxKeySize
    · have inserts := Transaction.insert_ends maintains stands.active (Nat.le_refl _)
        holding.held.tree.config.maxEntries_le short value.2
      rcases (inserts.of_error fails).1 with ⟨cause, isError⟩
      injection isError with isError
      rw [isError] at otherwise
      contradiction
    · rw [Transaction.insert_eq_of_long stands.active (Nat.lt_of_not_le short) value.val] at fails
      injection fails with _ same
      exact same.symm
  erase := by
    intro key error after fails
    rw [Transaction.erase_eq stands.active key] at fails
    injection fails with isError same
    injection isError with isError
    exact ⟨by rw [← isError]; rfl, same.symm⟩

/-- However a transaction ends without a commit, and whichever calls of the pager failed before,
all is as it was when it began, if its copies can be written back. -/
theorem abort_restores {session opened : Session σ} {begun : Transaction} (calls : List Call)
    (reachable : Reachable session tree)
    (starts : Transaction.start tree session = .ok begun opened)
    (active : (Call.leaveAll calls ⟨begun, opened⟩).held.phase = .active)
    (givesUp : GivesUp (Call.leaveAll calls ⟨begun, opened⟩) middle after)
    (copies : Transaction.CopiesBack middle) :
    Restored session tree after ∧ Steadfast (Call.leaveAll calls ⟨begun, opened⟩) := by
  rcases reachable.keeps with ⟨outline, contents, keeps⟩
  have stands := (keeps.stands starts).calls calls active
  rcases stands.restored givesUp copies with ⟨includes, tree_eq, ended⟩
  have room := ((Transaction.start_ends tree session).of_ok starts).2.2
  refine ⟨⟨prefix_of_includes room includes, tree_eq, ?_, closed_of_ended ended⟩,
    stands.steadfast⟩
  refine ⟨contents, keeps.tells, ?_⟩
  rw [tree_eq]
  exact (keeps.keep includes).tells

/-- An empty memory behind a pager that lets five writes pass and makes the next one fail. -/
def sixthWriteFails : Session (Faulty Memory) := ⟨(Faulty.wrap ⟨[]⟩ 0).failWriteAfter 5, []⟩

/-- With a tree made there, the sixth write is the one that overwrites the leaf for the first key.
Inserting fails, and leaves no trace. -/
theorem abort_restores_faulty :
    ∃ tree session begun opened cause after,
      Tree.openOrCreate 0 .default sixthWriteFails = .ok tree session ∧
      Transaction.start tree session = .ok begun opened ∧
      Transaction.insert [1] [2] ⟨begun, opened⟩ = .error (.error (.pager cause)) after ∧
      Restored session tree after ∧ Steadfast (⟨begun, opened⟩ : Holding Transaction _) := by
  let failing : Failure TreeError := .error (.pager (.injectedFault "simulated write error"))
  have runs : Ends (Tree.openOrCreate 0 .default sixthWriteFails)
      (fun tree session => Ends (Transaction.start tree session)
        (fun begun opened =>
          Ends (Transaction.put [1] [2] ⟨begun, opened⟩) (fun _ _ => False)
            (fun failure middle => failure = failing ∧
              Ends (Transaction.copyBack middle.held.shadows middle.session)
                (fun _ _ => True) (fun _ _ => False)) ∧
          Ends (Transaction.insert [1] [2] ⟨begun, opened⟩) (fun _ _ => False)
            (fun failure _ => failure = failing))
        (fun _ _ => False))
      (fun _ _ => False) := by
    decide +kernel
  rcases runs.exists_ok (fun _ _ => id) with ⟨tree, session, opens, begins⟩
  rcases begins.exists_ok (fun _ _ => id) with ⟨begun, opened, starts, putting, inserting⟩
  rcases putting.exists_error (fun _ _ => id) with ⟨_, middle, puts, rfl, copying⟩
  rcases inserting.exists_error (fun _ _ => id) with ⟨_, after, inserts, rfl⟩
  rcases copying.exists_ok (fun _ _ => id) with ⟨_, last, copies, _⟩
  have reachable := Reachable.made (Or.inl rfl) opens
  have active : begun.phase = .active := by
    rw [((Transaction.start_ends tree session).of_ok starts).1]
    rfl
  have givesUp := @GivesUp.insert _ _ _ [1] ⟨[2], by decide⟩ _ _ _ puts inserts
  have restores := abort_restores [] reachable starts active givesUp ⟨last, copies⟩
  exact ⟨tree, session, begun, opened, _, after, opens, starts, inserts, restores⟩

end PagedMap
