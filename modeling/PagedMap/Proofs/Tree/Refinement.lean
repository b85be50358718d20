import PagedMap.Proofs.Tree.Answering
import PagedMap.Proofs.Tree.Runs

/-!
# A tree is a map

Whatever a client does on a calm pager, each answer that it gets is the one that a map would give.
Lookups go down the nodes while iterations follow the chain of leaves, and both agree with the map.
-/

namespace PagedMap

open Session (Still)

variable {σ α : Type} [Pager σ] [AtomicPager σ] {index : PageIndex} {limit count : Nat}
  {before now contents : Contents} {tree : Tree} {session : Session σ}

/-- A question is answered with a value, and changes no page. -/
def Gives (question : TreeM σ α) (session : Session σ) (answer : α) : Prop :=
  ∃ after, question session = .ok answer after ∧ session.Still after

theorem Consults.gives {question : TreeM σ α} {answer : α}
    (consults : Consults session.pages question (· = answer)) (calm : session.Calm) :
    Gives question session answer := by
  have asked := consults session rfl
  rcases Ends.exists_ok asked (fun _ _ denied => denied.stormy calm) with
    ⟨_, after, given, rfl, still⟩
  exact ⟨after, given, still⟩

/-- A tree answers as a map does. -/
structure Tree.Answers (contents : Contents) (tree : Tree) (session : Session σ) : Prop where
  get? : ∀ key, Gives (tree.get? key) session (contents key)
  contains : ∀ key, Gives (tree.contains key) session (contents key).isSome
  /-- An iteration may end early; otherwise it passes all entries and then finds no more. -/
  entries : ∃ entries, Lists contents entries ∧
    (∀ most, Gives (tree.entries most) session (entries.take most)) ∧
    Gives tree.size session entries.length

/-- A transaction answers as a map does, and a question changes nothing about it. -/
structure Transaction.Answers (contents : Contents) (transaction : Transaction)
    (session : Session σ) : Prop where
  get? : ∀ key, Gives (HoldingM.workOn transaction (Transaction.get? key)) session
    (contents key, transaction)
  contains : ∀ key, Gives (HoldingM.workOn transaction (Transaction.contains key)) session
    ((contents key).isSome, transaction)

/-- What a client has answers as its account says. -/
inductive Account.Answers : Account → Client → Session σ → Prop where
  | unopened (session : Session σ) : Answers .unopened .closed session
  | resting {contents : Contents} {tree : Tree} {session : Session σ}
      (answers : tree.Answers contents session) :
      Answers (.resting contents) (.resting tree) session
  | changing {before now : Contents} {transaction : Transaction} {session : Session σ}
      (answers : transaction.Answers now session) :
      Answers (.changing before now) (.changing transaction) session

theorem Tree.Tells.answers (tells : tree.Tells σ contents session.pages) (calm : session.Calm) :
    tree.Answers contents session where
  get? key := (tells.get? key).gives calm
  contains key := (tells.contains key).gives calm
  entries := by
    rcases tells.entries with ⟨entries, lists, passed, sized⟩
    exact ⟨entries, lists, fun most => (passed most).gives calm, sized.gives calm⟩

/-- A question that a transaction answers is answered to the client, with the transaction as it
was. -/
theorem gives_workOn {transaction : Transaction} {question : TransactionM σ α} {answer : α}
    (asked : Ends (question ⟨transaction, session⟩)
      (fun given after => given = answer ∧
        ∃ later, after = { held := transaction, session := later } ∧ session.Still later)
      (fun failure after => ∃ later, after = { held := transaction, session := later } ∧
        session.Denied failure later))
    (calm : session.Calm) :
    Gives (HoldingM.workOn transaction question) session (answer, transaction) := by
  have works : Ends (HoldingM.workOn transaction question session)
      (fun given after => given = (answer, transaction) ∧ session.Still after)
      (fun failure after => session.Denied failure after) := by
    apply HoldingM.workOn_ends
    apply Ends.mono asked
    · rintro _ _ ⟨rfl, later, rfl, still⟩
      exact ⟨rfl, still⟩
    · rintro failure _ ⟨later, rfl, denied⟩
      exact denied
  rcases Ends.exists_ok works (fun _ _ denied => denied.stormy calm) with
    ⟨_, after, given, rfl, still⟩
  exact ⟨after, given, still⟩

theorem Changes.answers {transaction : Transaction}
    (changes : Changes index limit count before now ⟨transaction, session⟩) :
    transaction.Answers now session := by
  rcases changes.maintains with ⟨base, outline, earlier, maintains, _⟩
  constructor
  · intro key
    exact gives_workOn (Transaction.get?_ends maintains changes.active key) changes.calm
  · intro key
    exact gives_workOn (Transaction.contains_ends maintains changes.active key) changes.calm

theorem Sound.answers {account : Account} {client : Client}
    (sound : Sound index limit count account client session) : account.Answers client session := by
  cases sound with
  | unopened creatable calm => exact .unopened _
  | resting rests =>
      rcases rests.keeps with ⟨outline, keeps⟩
      exact .resting (keeps.tells.answers rests.calm)
  | changing changes => exact .changing changes.answers

/-- Every run on a calm pager goes well as long as there are page indices and commit numbers, and
at every point of it the tree, or the transaction that is under way, answers as a map does in which
the same actions were performed. -/
theorem run_answers {actions done rest : List Action} (calm : session.Calm)
    (creatable : Creatable session.pages index)
    (fewPages : (lastState (Client.run index actions .closed session)).pages.length <
      Word.signedLimit)
    (fewCommits : Action.commitsOf actions < Word.limit) (point : actions = done ++ rest) :
    ∃ client after, Client.run index done .closed session = .ok client after ∧
      (Account.unopened.tally done).Answers client after := by
  have admitted : ∀ action ∈ done, action.Admitted 255 :=
    Action.admitted fun config _ => config.maxEntries_le
  have sound : Sound index 255 0 .unopened .closed session := .unopened creatable calm
  have runs := sound.run_ends (Nat.le_refl _) admitted
  rw [Nat.zero_add] at runs
  have fewer : Action.commitsOf done < Word.limit := by
    rw [point, Action.commitsOf, weigh_append] at fewCommits
    exact Nat.lt_of_le_of_lt (Nat.le_add_right ..) fewCommits
  cases ran : Client.run index done .closed session with
  | ok client after => exact ⟨client, after, rfl, (runs.of_ok ran).1.answers⟩
  | error failure after =>
      have whole : Client.run index actions .closed session = .error failure after := by
        rw [point, Client.run_append]
        exact bind_eq_of_error ran _
      rw [whole] at fewPages
      rcases runs.of_error ran with full | last
      · exact absurd fewPages (Nat.not_lt.mpr full)
      · exact absurd fewer (Nat.not_lt.mpr last)

/-- A run in an empty memory: one transaction is committed, and another one rolled back. -/
theorem run_answers_memory : ∃ client after,
    Client.run 0 [.opening .default, .start, .call (.insert [1] ⟨[2], by decide⟩), .commit,
        .opening .default, .start, .call (.insert [3] ⟨[4], by decide⟩), .rollback] .closed
        (⟨⟨[]⟩, []⟩ : Session Memory) = .ok client after ∧
      (Account.resting (Contents.empty.insert [1] [2])).Answers client after := by
  have calm : Session.Calm (⟨⟨[]⟩, []⟩ : Session Memory) := trivial
  have fewPages : (lastState (Client.run 0 [.opening .default, .start,
      .call (.insert [1] ⟨[2], by decide⟩), .commit, .opening .default, .start,
      .call (.insert [3] ⟨[4], by decide⟩), .rollback] .closed
      (⟨⟨[]⟩, []⟩ : Session Memory))).pages.length < Word.signedLimit := by
    decide +kernel
  exact run_answers calm (Or.inl rfl) fewPages (by decide) (List.append_nil _).symm

end PagedMap
