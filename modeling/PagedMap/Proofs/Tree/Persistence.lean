import PagedMap.Proofs.Pager.Preparing
import PagedMap.Proofs.Pager.Recording
import PagedMap.Proofs.Tree.Aborting
import PagedMap.Proofs.Tree.Refinement

/-!
# A tree outlives its session

The root of a tree and its commit number are kept twice, in memory and in the anchor page.
Transactions change the two at different moments, but between transactions they agree, however the
transactions ended. A tree that is opened from its pages is therefore the one that was let go of,
and what was committed has been made durable.
-/

namespace PagedMap

open PageList (fetch)

variable {σ : Type} [Pager σ] [AtomicPager σ]

/-! ## Counting commits -/

/-- The trees that can be reached, with the number of commits on the way. Any call of the pager may
fail, but if a transaction gives up, its copies are written back. Between two transactions the pages
may be taken to another session. -/
inductive ReachedBy : Nat → Session σ → Tree → Prop where
  | made {index : PageIndex} {config : Config} {tree : Tree} {session after : Session σ}
      (creatable : Creatable session.pages index)
      (opens : Tree.openOrCreate index config session = .ok tree after) : ReachedBy 0 after tree
  | reopened {commits : Nat} {config : Config} {tree later : Tree} {session after : Session σ}
      (reached : ReachedBy commits session tree)
      (opens : Tree.openOrCreate tree.anchorIndex config session = .ok later after) :
      ReachedBy commits after later
  | moved {commits : Nat} {tree : Tree} {session later : Session σ}
      (reached : ReachedBy commits session tree) (same : later.pages = session.pages) :
      ReachedBy commits later tree
  | asked {commits : Nat} {tree : Tree} {session : Session σ}
      (reached : ReachedBy commits session tree) (question : Question) :
      ReachedBy commits (question.leaves tree session) tree
  | committed {commits : Nat} {tree : Tree} {session opened : Session σ} {begun : Transaction}
      {calls : List Call} {after : Holding Transaction σ}
      (reached : ReachedBy commits session tree)
      (starts : Transaction.start tree session = .ok begun opened)
      (commits_ok : Transaction.commit (Call.leaveAll calls ⟨begun, opened⟩) = .ok () after) :
      ReachedBy (commits + 1) after.session after.held.tree
  | gaveUp {commits : Nat} {tree : Tree} {session opened : Session σ} {begun : Transaction}
      {calls later : List Call} {middle after : Holding Transaction σ}
      (reached : ReachedBy commits session tree)
      (starts : Transaction.start tree session = .ok begun opened)
      (active : (Call.leaveAll calls ⟨begun, opened⟩).held.phase = .active)
      (givesUp : GivesUp (Call.leaveAll calls ⟨begun, opened⟩) middle after)
      (copies : Transaction.CopiesBack middle) :
      ReachedBy commits (Call.leaveAll later after).session (Call.leaveAll later after).held.tree

variable {commits : Nat} {session : Session σ} {tree : Tree}

/-- The pages keep a tree that is reached, and its commit number is the number of commits. -/
theorem ReachedBy.keeps (reached : ReachedBy commits session tree) :
    (∃ outline contents, Keeps 255 session.pages tree outline contents) ∧
      tree.anchor.sequence.toNat = commits := by
  induction reached with
  | made creatable opens =>
      have opened := (Tree.openOrCreate_ends _ creatable).of_ok opens
      refine ⟨⟨_, _, opened.fresh.keeps⟩, ?_⟩
      rw [opened.sequence_eq]
      rfl
  | @reopened _ config _ _ session _ _ opens ih =>
      rcases ih with ⟨⟨outline, contents, keeps⟩, counted⟩
      rcases (keeps.openOrCreate_consults config session rfl).of_ok opens with ⟨rfl, still⟩
      refine ⟨⟨outline, contents, ?_⟩, counted⟩
      rw [still.pages_eq]
      exact { keeps with }
  | moved _ same ih =>
      rw [same]
      exact ih
  | asked _ question ih =>
      rcases ih with ⟨⟨outline, contents, keeps⟩, counted⟩
      refine ⟨⟨outline, contents, ?_⟩, counted⟩
      rw [(keeps.asked question).pages_eq]
      exact keeps
  | committed _ starts commitsOk ih =>
      rcases ih with ⟨⟨outline, contents, keeps⟩, counted⟩
      rcases keeps.committed starts commitsOk with ⟨kept, sequence_eq⟩
      exact ⟨kept, sequence_eq.trans (congrArg (· + 1) counted)⟩
  | @gaveUp _ _ _ _ _ _ later _ _ _ starts active givesUp copies ih =>
      rcases ih with ⟨⟨outline, contents, keeps⟩, counted⟩
      rcases keeps.gaveUp starts active givesUp copies later with ⟨kept, tree_eq⟩
      rw [tree_eq]
      exact ⟨⟨outline, contents, kept⟩, counted⟩

/-! ## Opening a tree again -/

/-- What is stored of a tree is the tree. The anchor page holds the anchor in memory, with the
number of commits. From any calm pager with the same pages, the tree is opened with the same anchor
and the same answers, and no page changes. The pages can be had from any calm storage of the bytes,
whatever an interrupted append has left behind them. -/
structure Tree.Persists (σ : Type) [Pager σ] [AtomicPager σ] (commits : Nat) (tree : Tree)
    (pages : List Page) : Prop where
  anchored : ∃ page, fetch pages tree.anchorIndex = some page ∧
    Anchor.ofPage page = .ok tree.anchor
  counted : tree.anchor.sequence.toNat = commits
  reopens : ∃ contents, tree.Tells σ contents pages ∧
    ∀ (τ : Type) [Pager τ] [AtomicPager τ] (session : Session τ) (config : Config),
      session.pages = pages → session.Calm →
      ∃ opened, Tree.openOrCreate tree.anchorIndex config session =
          .ok { tree with config } opened ∧
        session.Still opened ∧ Tree.Answers contents { tree with config } opened
  reloads : ∀ (τ : Type) [Storage τ] [ByteArrayStorage τ] (stored : Session τ),
    (PageFile.onPages stored).pages = pages → (PageFile.onPages stored).Calm →
    ∃ prepared, PageFile.prepare stored = .ok () prepared ∧
      (PageFile.onPages prepared).pages = pages ∧ (PageFile.onPages prepared).Calm

/-- The pages are enough: opened on whatever pager has them, the tree answers the same, and nothing
changes. -/
theorem Keeps.reopens {τ : Type} [Pager τ] [AtomicPager τ] {limit : Nat} {pages : List Page}
    {outline : Outline} {contents : Contents} (keeps : Keeps limit pages tree outline contents)
    {session : Session τ} (config : Config) (same : session.pages = pages) (calm : session.Calm) :
    ∃ opened, Tree.openOrCreate tree.anchorIndex config session = .ok { tree with config } opened ∧
      session.Still opened ∧ Tree.Answers contents { tree with config } opened := by
  have opens := keeps.openOrCreate_consults config session same
  rcases opens.exists_ok (fun _ _ denied => denied.stormy calm) with ⟨_, opened, given, rfl, still⟩
  have keepsAfter : Keeps limit opened.pages { tree with config } outline contents := by
    rw [still.pages_eq, same]
    exact { keeps with }
  exact ⟨opened, given, still, keepsAfter.tells.answers (still.calm calm)⟩

theorem prepare_same {τ : Type} [Storage τ] [ByteArrayStorage τ] {stored : Session τ}
    (calm : (PageFile.onPages stored).Calm) :
    ∃ prepared, PageFile.prepare stored = .ok () prepared ∧
      (PageFile.onPages prepared).pages = (PageFile.onPages stored).pages ∧
      (PageFile.onPages prepared).Calm := by
  rcases (PageFile.prepare_ends stored).exists_ok (fun _ _ refused => refused.2 calm) with
    ⟨_, prepared, given, same⟩
  exact ⟨prepared, given, same.pages_eq, same.calm calm⟩

theorem Keeps.persists {limit : Nat} {pages : List Page} {outline : Outline} {contents : Contents}
    (keeps : Keeps limit pages tree outline contents)
    (counted : tree.anchor.sequence.toNat = commits) : tree.Persists σ commits pages where
  anchored := ⟨_, keeps.anchored, Anchor.ofPage_toPage _⟩
  counted := counted
  reopens := ⟨contents, keeps.tells, fun _ _ _ _ config => keeps.reopens config⟩
  reloads := by
    rintro τ _ _ stored rfl calm
    exact prepare_same calm

/-! ## What was committed is durable -/

namespace Transaction

variable {ρ : Type} [Pager ρ]

/-- A commit syncs after its last write, so all pages are durable at its end. -/
theorem makeDurable_allDurable (holding : Holding Transaction (Recording ρ)) :
    Ends (makeDurable holding) (fun _ after => after.session.device.AllDurable)
      (fun _ _ => True) := by
  simp only [makeDurable]
  apply Ends.bind (Ends.any _)
  rintro tree first _
  apply Ends.bind (Ends.any _)
  rintro _ second _
  apply Ends.bind (Ends.any _)
  rintro sequence third _
  apply Ends.bind (Ends.any _)
  rintro _ fourth _
  apply Ends.bind (Ends.any _)
  rintro _ fifth _
  apply HoldingM.within_ends
  apply SessionM.relabel_ends
  apply SessionM.onDevice_ends
  exact (Recording.sync_allDurable fifth.session.device).mono (fun _ _ => id) fun _ _ _ => trivial

/-- The last thing that a commit does with the pager is to make durable what was written. -/
theorem commit_allDurable (holding : Holding Transaction (Recording ρ)) :
    Ends (commit holding) (fun _ after => after.session.device.AllDurable) (fun _ _ => True) := by
  simp only [commit]
  apply Ends.bind (Ends.any _)
  rintro _ first _
  apply Ends.bind (Ends.tryCatch (makeDurable_allDurable first) ?_)
  · exact fun _ _ durable => durable
  · rintro (error | fault) second _
    · apply Ends.bind (Ends.any _)
      exact fun _ _ _ => trivial
    · apply Ends.bind (Ends.any _)
      exact fun _ _ _ => trivial

end Transaction

/-- Between transactions what is stored of a tree is the tree, however many transactions were
committed and however the others ended; and a commit makes durable all that was written. -/
theorem reached_persists (reached : ReachedBy commits session tree) :
    tree.Persists σ commits session.pages ∧
      ∀ (ρ : Type) [Pager ρ] (before after : Holding Transaction (Recording ρ)),
        Transaction.commit before = .ok () after → after.session.device.AllDurable := by
  rcases reached.keeps with ⟨⟨outline, contents, keeps⟩, counted⟩
  refine ⟨keeps.persists counted, ?_⟩
  intro ρ _ before after commitsOk
  exact (Transaction.commit_allDurable before).of_ok commitsOk

/-- In an empty memory one transaction is committed, and what another one inserted is dropped. -/
theorem reached_persists_memory :
    ∃ (tree : Tree) (session : Session Memory), ReachedBy 1 session tree ∧
      tree.Persists Memory 1 session.pages ∧
      ∀ (ρ : Type) [Pager ρ] (before after : Holding Transaction (Recording ρ)),
        Transaction.commit before = .ok () after → after.session.device.AllDurable := by
  let calls : List Call := [.insert [1] ⟨[2], by decide⟩]
  have runs : Ends (Tree.openOrCreate 0 .default (⟨⟨[]⟩, []⟩ : Session Memory))
      (fun tree session => Ends (Transaction.start tree session)
        (fun begun opened => Ends (Transaction.commit (Call.leaveAll calls ⟨begun, opened⟩))
          (fun _ after => Ends (Transaction.start after.held.tree after.session)
            (fun begun opened =>
              (Call.leaveAll calls ⟨begun, opened⟩).held.phase = .active ∧
              Ends (Transaction.copyBack (Call.leaveAll calls ⟨begun, opened⟩).held.shadows
                (Call.leaveAll calls ⟨begun, opened⟩).session)
                (fun _ _ => True) (fun _ _ => False))
            (fun _ _ => False))
          (fun _ _ => False))
        (fun _ _ => False))
      (fun _ _ => False) := by
    decide +kernel
  rcases runs.exists_ok (fun _ _ => id) with ⟨tree, session, opens, begins⟩
  rcases begins.exists_ok (fun _ _ => id) with ⟨begun, opened, starts, committing⟩
  rcases committing.exists_ok (fun _ _ => id) with ⟨_, after, commitsOk, beginning⟩
  rcases beginning.exists_ok (fun _ _ => id) with
    ⟨begunAgain, openedAgain, startsAgain, active, copying⟩
  rcases copying.exists_ok (fun _ _ => id) with ⟨_, last, copies, _⟩
  have committed := ReachedBy.committed (.made (Or.inl rfl) opens) starts commitsOk
  let dropped := lastState (Transaction.drop (Call.leaveAll calls ⟨begunAgain, openedAgain⟩))
  have gaveUp : ReachedBy 1 (Call.leaveAll [] dropped).session
      (Call.leaveAll [] dropped).held.tree :=
    .gaveUp committed startsAgain active .drop ⟨last, copies⟩
  exact ⟨_, _, gaveUp, reached_persists gaveUp⟩

end PagedMap
