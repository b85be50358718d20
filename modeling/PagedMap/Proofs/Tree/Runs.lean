import PagedMap.Proofs.Tree.Calls
import PagedMap.Proofs.Tree.Committing
import PagedMap.Proofs.Tree.Opening

/-!
# Runs

A client opens a tree, and changes it by one transaction after the other. What it does is a list of
actions, and beside the pages we keep an account of what the tree should contain: a map, and during
a transaction also the map from before. A run on a calm pager goes well unless there are no more
page indices or commit numbers, and after each action the pages keep the tree as the account says.
-/

namespace PagedMap

open Session (Still)

/-! ## Actions -/

/-- What a client may do. -/
inductive Action where
  | opening (config : Config)
  | start
  | call (call : Call)
  | commit
  | rollback
  | drop

/-- Where a client stands: it has nothing, a tree, or a transaction on a tree. -/
inductive Client where
  | closed
  | resting (tree : Tree)
  | changing (transaction : Transaction)

/-- What a client's tree should contain. During a transaction there is also what it contained
before. -/
inductive Account where
  | unopened
  | resting (contents : Contents)
  | changing (before now : Contents)

namespace Account

/-- An action keeps or changes the map. Where an action has no place, it does nothing. -/
def next : Account → Action → Account
  | unopened, .opening _ => resting .empty
  | resting contents, .start => changing contents contents
  | changing before now, .call call => changing before (call.applied now)
  | changing _ now, .commit => resting now
  | changing before _, .rollback => resting before
  | changing before _, .drop => resting before
  | account, _ => account

/-- The account after a list of actions. -/
def tally (account : Account) (actions : List Action) : Account := actions.foldl next account

end Account

/-- A tree is made, and keys of one byte are inserted in a transaction, each with itself as the
value. -/
def insertingBytes (config : Config) (bytes : List UInt8) : List Action :=
  .opening config :: .start :: bytes.map fun byte => .call (insertByte byte)

section Perform

variable {σ : Type} [Pager σ]

/-- Makes a call. If the call fails and the transaction is still under way, it goes on. -/
def Transaction.attempt (call : Call) : TransactionM σ Unit :=
  tryCatch call.perform fun
    | .fault fault => throw (.fault fault)
    | .error error => do
      if !(← HoldingM.held).isActive then
        HoldingM.fail error

/-- Ends a transaction. The tree is there again. -/
def Client.finish (transaction : Transaction) (action : TransactionM σ Unit) : TreeM σ Client := do
  let (_, ended) ← HoldingM.workOn transaction action
  return .resting ended.tree

/-- Performs an action on the tree with its anchor at an index. Where an action has no place, it
does nothing. -/
def Action.perform (anchorIndex : PageIndex) : Action → Client → TreeM σ Client
  | .opening config, .closed => return .resting (← Tree.openOrCreate anchorIndex config)
  | .opening config, .resting _ => return .resting (← Tree.openOrCreate anchorIndex config)
  | .start, .resting tree => return .changing (← Transaction.start tree)
  | .call made, .changing transaction => do
    let (_, changed) ← HoldingM.workOn transaction (Transaction.attempt made)
    return .changing changed
  | .commit, .changing transaction => Client.finish transaction Transaction.commit
  | .rollback, .changing transaction => Client.finish transaction Transaction.rollback
  | .drop, .changing transaction => Client.finish transaction Transaction.drop
  | _, client => return client

/-- Performs actions one after the other. -/
def Client.run (anchorIndex : PageIndex) : List Action → Client → TreeM σ Client
  | [], client => return client
  | action :: rest, client => do
    let later ← action.perform anchorIndex client
    Client.run anchorIndex rest later

theorem Client.run_append (anchorIndex : PageIndex) (done rest : List Action) (client : Client) :
    (Client.run anchorIndex (done ++ rest) client : TreeM σ Client) =
      Client.run anchorIndex done client >>= Client.run anchorIndex rest := by
  induction done generalizing client with
  | nil => exact (pure_bind client _).symm
  | cons action others ih =>
      simp only [List.cons_append, Client.run, bind_assoc]
      apply congrArg
      funext later
      exact ih later

omit [Pager σ] in
theorem Client.finish_ends {action : TransactionM σ Unit} {transaction : Transaction}
    {session : Session σ} {post : Client → Session σ → Prop} {broken : Session σ → Prop}
    (ends : Ends (action ⟨transaction, session⟩)
      (fun _ after => post (.resting after.held.tree) after.session)
      (fun _ after => broken after.session)) :
    Ends (Client.finish transaction action session) post (fun _ => broken) := by
  have works : Ends (HoldingM.workOn transaction action session)
      (fun given after => post (.resting given.2.tree) after) (fun _ => broken) :=
    HoldingM.workOn_ends ends
  exact works.bind fun _ _ => id

theorem Action.call_ends {index : PageIndex} {call : Call} {transaction : Transaction}
    {session : Session σ} {post : Client → Session σ → Prop} {broken : Session σ → Prop}
    (ends : Ends (Transaction.attempt call ⟨transaction, session⟩)
      (fun _ after => post (.changing after.held) after.session)
      (fun _ after => broken after.session)) :
    Ends ((Action.call call).perform index (.changing transaction) session) post
      (fun _ => broken) := by
  have works : Ends (HoldingM.workOn transaction (Transaction.attempt call) session)
      (fun given after => post (.changing given.2) after) (fun _ => broken) :=
    HoldingM.workOn_ends ends
  exact works.bind fun _ _ => id

end Perform

namespace Action

/-- A configuration allows for no more keys than the limit. -/
def Admitted (limit : Nat) : Action → Prop
  | opening config => config.maxEntries ≤ limit
  | _ => True

/-- How many commit numbers an action takes at most. -/
def commits : Action → Nat
  | commit => 1
  | _ => 0

/-- How many commit numbers actions take at most. -/
def commitsOf (actions : List Action) : Nat := weigh commits actions

/-- Actions are admitted if every configuration among them keeps to the limit. -/
theorem admitted {limit : Nat} {actions : List Action}
    (roomy : ∀ config, .opening config ∈ actions → config.maxEntries ≤ limit) :
    ∀ action ∈ actions, action.Admitted limit := by
  intro action member
  cases action with
  | opening config => exact roomy config member
  | call made => trivial
  | start => trivial
  | commit => trivial
  | rollback => trivial
  | drop => trivial

end Action

variable {σ : Type} [Pager σ] [AtomicPager σ] {index : PageIndex} {limit count : Nat}
  {before now contents : Contents} {tree : Tree} {session : Session σ}
  {holding : Holding Transaction σ}

/-! ## Sound states -/

/-- Pages keep a client's tree with some contents. -/
structure Rests (index : PageIndex) (limit count : Nat) (contents : Contents) (tree : Tree)
    (session : Session σ) : Prop where
  keeps : ∃ outline, Keeps limit session.pages tree outline contents
  anchorIndex_eq : tree.anchorIndex = index
  roomy : tree.config.maxEntries ≤ limit
  counted : tree.anchor.sequence.toNat ≤ count
  calm : session.Calm

/-- Pages keep the tree of a transaction with some contents, and they can be brought back to what
they were when they kept the tree with the contents from before. -/
structure Changes (index : PageIndex) (limit count : Nat) (before now : Contents)
    (holding : Holding Transaction σ) : Prop where
  maintains : ∃ base outline earlier, Transaction.Maintains base limit outline now holding ∧
    Keeps limit base holding.held.treeBefore earlier before
  active : holding.held.phase = .active
  anchorIndex_eq : holding.held.tree.anchorIndex = index
  roomy : holding.held.tree.config.maxEntries ≤ limit
  counted : holding.held.tree.anchor.sequence.toNat ≤ count
  countedBefore : holding.held.anchorBefore.sequence.toNat ≤ count
  calm : holding.session.Calm

/-- A client stands as its account says. -/
inductive Sound (index : PageIndex) (limit count : Nat) :
    Account → Client → Session σ → Prop where
  | unopened {session : Session σ} (creatable : Creatable session.pages index)
      (calm : session.Calm) : Sound index limit count .unopened .closed session
  | resting {contents : Contents} {tree : Tree} {session : Session σ}
      (rests : Rests index limit count contents tree session) :
      Sound index limit count (.resting contents) (.resting tree) session
  | changing {before now : Contents} {transaction : Transaction} {session : Session σ}
      (changes : Changes index limit count before now ⟨transaction, session⟩) :
      Sound index limit count (.changing before now) (.changing transaction) session

theorem Sound.recount {more : Nat} {account : Account} {client : Client}
    (sound : Sound index limit count account client session) (fewer : count ≤ more) :
    Sound index limit more account client session := by
  cases sound with
  | unopened creatable calm => exact .unopened creatable calm
  | resting rests => exact .resting { rests with counted := Nat.le_trans rests.counted fewer }
  | changing changes =>
      exact .changing { changes with
        counted := Nat.le_trans changes.counted fewer
        countedBefore := Nat.le_trans changes.countedBefore fewer }

/-- A run stops only if there are no more page indices or commit numbers. -/
def Halts (count : Nat) (after : Session σ) : Prop :=
  Word.signedLimit ≤ after.pages.length ∨ Word.limit ≤ count

/-! ## One action -/

/-- Where there is no tree yet, opening one gives a tree that rests, with nothing in it. -/
theorem opening_ends (config : Config) (roomy : config.maxEntries ≤ limit)
    (creatable : Creatable session.pages index) (calm : session.Calm) :
    Ends (Tree.openOrCreate index config session)
      (fun tree after => Rests index limit count .empty tree after ∧ session.Grows after)
      (fun _ after => Halts count after) := by
  apply Ends.mono (Tree.openOrCreate_ends config creatable)
  · rintro tree after ⟨fresh, anchorIndex_eq, config_eq, sequence_eq, _, grows⟩
    refine ⟨⟨⟨_, fresh.keeps⟩, anchorIndex_eq, ?_, ?_, grows.calm calm⟩, grows⟩
    · rw [config_eq]
      exact roomy
    · rw [sequence_eq]
      exact Nat.zero_le _
  · intro failure after fails
    exact Or.inl (fails.full calm)

/-- A tree that is opened again rests with what it contained, whatever the configuration. -/
theorem Rests.opening_ends (rests : Rests index limit count contents tree session)
    (config : Config) (roomy : config.maxEntries ≤ limit) :
    Ends (Tree.openOrCreate index config session)
      (fun later after => Rests index limit count contents later after ∧ session.Grows after)
      (fun _ after => Halts count after) := by
  rcases rests with ⟨⟨outline, keeps⟩, rfl, _, counted, calm⟩
  apply Ends.mono (keeps.openOrCreate_consults (σ := σ) config session rfl)
  · rintro _ after ⟨rfl, still⟩
    refine ⟨⟨⟨outline, ?_⟩, rfl, roomy, counted, still.calm calm⟩, Session.Grows.of_still still⟩
    rw [still.pages_eq]
    exact { keeps with }
  · intro failure after denied
    exact absurd calm denied.stormy

/-- A transaction that begins on a tree at rest changes it from its contents as they are. -/
theorem Rests.start_ends (rests : Rests index limit count contents tree session) :
    Ends (Transaction.start tree session)
      (fun begun after => Changes index limit count contents contents ⟨begun, after⟩ ∧
        session.Grows after)
      (fun _ after => Halts count after) := by
  rcases rests.keeps with ⟨outline, keeps⟩
  apply Ends.mono (Transaction.start_ends tree session)
  · rintro _ after ⟨rfl, still, room⟩
    refine ⟨⟨⟨session.pages, outline, outline, ?_, keeps⟩, rfl, rests.anchorIndex_eq, rests.roomy,
      rests.counted, rests.counted, still.calm rests.calm⟩, Session.Grows.of_still still⟩
    exact (Transaction.Maintains.of_keeps keeps room).of_still still
  · rintro failure after ⟨_, still, full⟩
    left
    rw [still.pages_eq]
    exact full rests.calm

/-- When a transaction goes on, what its tree contained before stays the same. -/
theorem Changes.goesOn (changes : Changes index limit count before now holding) {base : List Page}
    {earlier : Outline} (keepsBefore : Keeps limit base holding.held.treeBefore earlier before)
    {after : Holding Transaction σ} {outline : Outline}
    (continues : Transaction.Continues base limit outline contents holding after) :
    Changes index limit count before contents after ∧ holding.session.Grows after.session := by
  rcases continues with ⟨⟨later, maintains, _⟩, advances, _, sequence_eq⟩
  refine ⟨⟨⟨base, later, earlier, maintains, ?_⟩, ?_, ?_, ?_, ?_, ?_, ?_⟩,
    advances.longer, advances.calm⟩
  · rw [advances.treeBefore_eq]
    exact keepsBefore
  · exact advances.phase_eq.trans changes.active
  · exact advances.anchorIndex_eq.trans changes.anchorIndex_eq
  · rw [advances.config_eq]
    exact changes.roomy
  · rw [sequence_eq]
    exact changes.counted
  · rw [advances.anchorBefore_eq]
    exact changes.countedBefore
  · exact advances.calm changes.calm

omit [AtomicPager σ] in
/-- A call that fails in a transaction that goes on counts like one that succeeds. -/
theorem Transaction.attempt_ends {call : Call} {post broken : Holding Transaction σ → Prop}
    (performs : Ends (call.perform holding) (fun _ => post) fun failure after =>
      (∃ error, failure = .error error) ∧
        (after.held.phase = .active ∧ post after ∨ after.held.phase ≠ .active ∧ broken after)) :
    Ends (attempt call holding) (fun _ => post) (fun _ => broken) := by
  simp only [attempt]
  apply Ends.tryCatch performs
  rintro _ after ⟨⟨error, rfl⟩, goesOn | ended⟩
  · change Ends ((if !after.held.isActive then HoldingM.fail error else pure () :
      TransactionM σ Unit) after) _ _
    rw [if_neg (by simp [isActive, goesOn.1])]
    exact goesOn.2
  · change Ends ((if !after.held.isActive then HoldingM.fail error else pure () :
      TransactionM σ Unit) after) _ _
    rw [if_pos (by simp [isActive, ended.1])]
    exact ended.2

/-- A call that is attempted lets the transaction go on, or it gives up. -/
theorem Transaction.attempt_continues {base : List Page} {outline : Outline}
    (maintains : Maintains base limit outline contents holding)
    (active : holding.held.phase = .active) (bounded : limit ≤ 255)
    (roomy : holding.held.tree.config.maxEntries ≤ limit) (call : Call) :
    Ends (attempt call holding)
      (fun _ after => Continues base limit outline (call.applied contents) holding after)
      (fun _ after => ∃ middle, GivenUp base holding middle after ∧
        (holding.session.Calm → Word.signedLimit ≤ middle.session.pages.length)) := by
  apply attempt_ends
  apply (call.perform_ends maintains active bounded roomy).mono fun _ _ => id
  rintro failure after ⟨isError, continues | ⟨middle, givenUp, full⟩⟩
  · exact ⟨isError, Or.inl ⟨continues.advances.phase_eq.trans active, continues⟩⟩
  · exact ⟨isError, Or.inr ⟨givenUp.aborted.ended, middle, givenUp, full⟩⟩

/-- A call changes the map as it says, and the map from before stays at hand. -/
theorem Changes.attempt_ends (changes : Changes index limit count before now holding)
    (bounded : limit ≤ 255) (call : Call) :
    Ends (Transaction.attempt call holding)
      (fun _ after => Changes index limit count before (call.applied now) after ∧
        holding.session.Grows after.session)
      (fun _ after => Halts count after.session) := by
  rcases changes.maintains with ⟨base, outline, earlier, maintains, keepsBefore⟩
  apply Ends.mono
    (Transaction.attempt_continues maintains changes.active bounded changes.roomy call)
  · exact fun _ after continues => changes.goesOn keepsBefore continues
  · rintro failure after ⟨middle, givenUp, full⟩
    left
    rw [givenUp.aborted.length_eq]
    exact full changes.calm

/-- With a commit the map as it is now stands, under the next number. -/
theorem Changes.commit_ends (changes : Changes index limit count before now holding) :
    Ends (Transaction.commit holding)
      (fun _ after => Rests index limit (count + 1) now after.held.tree after.session ∧
        holding.session.Grows after.session)
      (fun _ after => Halts (count + 1) after.session) := by
  rcases changes.maintains with ⟨base, outline, earlier, maintains, _⟩
  apply Ends.mono (Transaction.commit_ends maintains changes.active)
  · intro _ after committed
    refine ⟨⟨⟨outline, committed.keeps⟩, ?_, ?_, ?_, committed.calm changes.calm⟩,
      committed.longer, committed.calm⟩
    · exact committed.anchorIndex_eq.trans changes.anchorIndex_eq
    · rw [committed.config_eq]
      exact changes.roomy
    · rw [committed.sequence_eq]
      exact Nat.succ_le_succ changes.counted
  · rintro failure after ⟨middle, _, givenUp, full | last⟩
    · left
      rw [givenUp.aborted.length_eq]
      exact full.2 changes.calm
    · exact Or.inr (Nat.le_trans last.2 (Nat.succ_le_succ changes.counted))

/-- However a transaction is given up, the tree rests again with the map from before. -/
theorem Changes.undone (changes : Changes index limit count before now holding) {base : List Page}
    {earlier : Outline} {after : Holding Transaction σ}
    (undoable : Undoable base holding.held holding.session.pages)
    (keepsBefore : Keeps limit base holding.held.treeBefore earlier before)
    (aborted : Transaction.Aborted base holding after) :
    Rests index limit count before after.held.tree after.session ∧
      holding.session.Grows after.session := by
  have includes := aborted.includes (Transaction.Undoable.copiesBack undoable changes.calm)
  have tree_eq : after.held.tree = holding.held.treeBefore := by
    rw [aborted.held_eq]
    rfl
  refine ⟨⟨⟨earlier, ?_⟩, ?_, ?_, ?_, aborted.calm changes.calm⟩,
    Nat.le_of_eq aborted.length_eq.symm, aborted.calm⟩
  · rw [tree_eq]
    exact keepsBefore.keep includes
  · rw [tree_eq]
    exact changes.anchorIndex_eq
  · rw [tree_eq]
    exact changes.roomy
  · rw [tree_eq]
    exact changes.countedBefore

theorem Changes.rollback_ends (changes : Changes index limit count before now holding) :
    Ends (Transaction.rollback holding)
      (fun _ after => Rests index limit count before after.held.tree after.session ∧
        holding.session.Grows after.session)
      (fun _ after => Halts count after.session) := by
  rcases changes.maintains with ⟨base, _, earlier, maintains, keepsBefore⟩
  apply Ends.mono (Transaction.rollback_ends maintains.undoable changes.active)
  · intro _ after aborted
    exact changes.undone maintains.undoable keepsBefore aborted
  · rintro failure after ⟨_, stormy, _⟩
    exact absurd changes.calm stormy

theorem Changes.drop_ends (changes : Changes index limit count before now holding) :
    Ends (Transaction.drop holding)
      (fun _ after => Rests index limit count before after.held.tree after.session ∧
        holding.session.Grows after.session)
      (fun _ after => Halts count after.session) := by
  rcases changes.maintains with ⟨base, _, earlier, maintains, keepsBefore⟩
  apply Ends.mono (Transaction.drop_ends maintains.undoable changes.active)
  · intro _ after aborted
    exact changes.undone maintains.undoable keepsBefore aborted
  · intro failure after fails
    exact fails.elim

/-- When a transaction has ended one way or the other, the client is sound with what is left. -/
theorem finish_ends {action : TransactionM σ Unit} {transaction : Transaction}
    (ends : Ends (action ⟨transaction, session⟩)
      (fun _ after => Rests index limit count contents after.held.tree after.session ∧
        session.Grows after.session)
      (fun _ after => Halts count after.session)) :
    Ends (Client.finish transaction action session)
      (fun later after => Sound index limit count (.resting contents) later after ∧
        session.Grows after)
      (fun _ after => Halts count after) := by
  apply Client.finish_ends
  apply ends.mono
  · rintro _ after ⟨rests, grows⟩
    exact ⟨.resting rests, grows⟩
  · exact fun _ _ => id

/-- An action that has no place leaves all as it is. -/
theorem Sound.stays {account : Account} {client : Client}
    (sound : Sound index limit count account client session) (more : Nat)
    {broken : Failure TreeError → Session σ → Prop} :
    Ends ((pure client : TreeM σ Client) session)
      (fun later after => Sound index limit (count + more) account later after ∧
        session.Grows after) broken :=
  ⟨sound.recount (Nat.le_add_right ..), Nat.le_refl _, id⟩

/-- After each action a client stands as its account says. -/
theorem Sound.perform_ends {account : Account} {client : Client} {action : Action}
    (sound : Sound index limit count account client session) (bounded : limit ≤ 255)
    (admitted : action.Admitted limit) :
    Ends (action.perform index client session)
      (fun later after => Sound index limit (count + action.commits) (account.next action) later
        after ∧ session.Grows after)
      (fun _ after => Halts (count + action.commits) after) := by
  have stays : Ends ((pure client : TreeM σ Client) session)
      (fun later after => Sound index limit (count + action.commits) account later after ∧
        session.Grows after)
      (fun _ after => Halts (count + action.commits) after) :=
    sound.stays action.commits
  -- An action that does not fit what the client has does nothing.
  cases sound with
  | unopened creatable calm =>
      cases action with
      | opening config =>
          apply Ends.bind (opening_ends config admitted creatable calm)
          rintro tree after ⟨rests, grows⟩
          exact ⟨.resting rests, grows⟩
      | start => exact stays
      | call call => exact stays
      | commit => exact stays
      | rollback => exact stays
      | drop => exact stays
  | resting rests =>
      cases action with
      | opening config =>
          apply Ends.bind (rests.opening_ends config admitted)
          rintro tree after ⟨restsLater, grows⟩
          exact ⟨.resting restsLater, grows⟩
      | start =>
          apply Ends.bind rests.start_ends
          rintro begun after ⟨changes, grows⟩
          exact ⟨.changing changes, grows⟩
      | call call => exact stays
      | commit => exact stays
      | rollback => exact stays
      | drop => exact stays
  | @changing before now transaction session changes =>
      cases action with
      | opening config => exact stays
      | start => exact stays
      | call call =>
          apply Action.call_ends
          apply (changes.attempt_ends bounded call).mono
          · rintro _ after ⟨changesLater, grows⟩
            exact ⟨.changing changesLater, grows⟩
          · exact fun _ _ => id
      | commit => exact finish_ends changes.commit_ends
      | rollback => exact finish_ends changes.rollback_ends
      | drop => exact finish_ends changes.drop_ends

/-- After a run a client stands as its account says. -/
theorem Sound.run_ends {account : Account} {client : Client} {actions : List Action}
    (sound : Sound index limit count account client session) (bounded : limit ≤ 255)
    (admitted : ∀ action ∈ actions, action.Admitted limit) :
    Ends (Client.run index actions client session)
      (fun later after => Sound index limit (count + Action.commitsOf actions)
        (account.tally actions) later after ∧ session.Grows after)
      (fun _ after => Halts (count + Action.commitsOf actions) after) := by
  induction actions generalizing account client session count with
  | nil => exact ⟨sound, Nat.le_refl _, id⟩
  | cons action rest ih =>
      have first := sound.perform_ends bounded (admitted action List.mem_cons_self)
      simp only [Client.run, Action.commitsOf]
      rw [weigh_cons, ← Nat.add_assoc]
      apply Ends.bind
      · apply Ends.mono first (fun _ _ => id)
        rintro failure after (full | last)
        · exact Or.inl full
        · exact Or.inr (Nat.le_trans last (Nat.le_add_right ..))
      · rintro later middle ⟨soundLater, grows⟩
        apply Ends.mono (ih soundLater fun other member =>
          admitted other (List.mem_cons_of_mem _ member))
        · rintro last after ⟨soundLast, growsLast⟩
          exact ⟨soundLast, grows.trans growsLast⟩
        · intro failure after halts
          exact halts

/-! ## Safety -/

/-- No call faults: if the pager fails, that is an error. -/
theorem Changes.perform_ne_fault (changes : Changes index limit count before now holding)
    (bounded : limit ≤ 255) (call : Call) (fault : Fault) (after : Holding Transaction σ) :
    call.perform holding ≠ .error (.fault fault) after := by
  intro faults
  rcases changes.maintains with ⟨base, outline, earlier, maintains, _⟩
  have performs := call.perform_ends maintains changes.active bounded changes.roomy
  rcases (performs.of_error faults).1 with ⟨error, isError⟩
  contradiction

/-- In every transaction that a run reaches on a calm pager, inserting any key with any value does
not fault, whatever configurations the tree was opened with. -/
theorem run_insert_ne_fault {actions : List Action} {transaction : Transaction}
    {after : Session σ} (calm : session.Calm) (creatable : Creatable session.pages index)
    (ran : Client.run index actions .closed session = .ok (.changing transaction) after)
    (key : Bytes) (value : Addressable) (fault : Fault) (last : Holding Transaction σ) :
    Transaction.insert key value ⟨transaction, after⟩ ≠ .error (.fault fault) last := by
  have admitted : ∀ action ∈ actions, action.Admitted 255 :=
    Action.admitted fun config _ => config.maxEntries_le
  have sound : Sound index 255 0 .unopened .closed session := .unopened creatable calm
  have soundAfter := ((sound.run_ends (Nat.le_refl _) admitted).of_ok ran).1
  generalize Account.unopened.tally actions = account at soundAfter
  cases soundAfter with
  | changing changes =>
      exact changes.perform_ne_fault (Nat.le_refl _) (.insert key value) fault last

/-- A client is in a transaction with some property. -/
def Client.Changing (holds : Holding Transaction σ → Prop) : Client → Session σ → Prop
  | .changing transaction, session => holds ⟨transaction, session⟩
  | _, _ => False

instance (holds : Holding Transaction σ → Prop) [DecidablePred holds] :
    (client : Client) → (session : Session σ) → Decidable (client.Changing holds session)
  | .changing transaction, session => inferInstanceAs (Decidable (holds ⟨transaction, session⟩))
  | .closed, _ => inferInstanceAs (Decidable False)
  | .resting _, _ => inferInstanceAs (Decidable False)

omit [Pager σ] [AtomicPager σ] in
theorem Client.Changing.exists_transaction {holds : Holding Transaction σ → Prop} {client : Client}
    (changing : client.Changing holds session) :
    ∃ transaction, client = .changing transaction ∧ holds ⟨transaction, session⟩ := by
  cases client with
  | closed => exact changing.elim
  | resting tree => exact changing.elim
  | changing transaction => exact ⟨transaction, rfl, changing⟩

/-- Inserting a key of one byte makes a new root. -/
def Transaction.Uproots (byte : UInt8) (holding : Holding Transaction Memory) : Prop :=
  Ends (insert [byte] [byte] holding)
    (fun _ after => after.held.tree.anchor.root ≠ holding.held.tree.anchor.root) (fun _ _ => False)

instance (byte : UInt8) : DecidablePred (Transaction.Uproots byte) :=
  fun _ => inferInstanceAs (Decidable (Ends _ _ _))

/-- Four keys fill a leaf when the tree is opened again for fewer children. -/
def reopeningNarrower : List Action :=
  insertingBytes .default [1, 2, 3, 4] ++ [.commit, .opening fourChildren, .start]

/-- A fifth key then splits the leaf and makes a new root, without a fault. -/
theorem run_insert_ne_fault_memory :
    ∃ (transaction : Transaction) (reached : Session Memory) (after : Holding Transaction Memory),
      Client.run 0 reopeningNarrower .closed (⟨⟨[]⟩, []⟩ : Session Memory) =
        .ok (.changing transaction) reached ∧
      Transaction.insert [5] [5] ⟨transaction, reached⟩ = .ok () after ∧
      after.held.tree.anchor.root ≠ transaction.tree.anchor.root ∧
      ∀ fault last, Transaction.insert [5] [5] ⟨transaction, reached⟩ ≠
        .error (.fault fault) last := by
  have runs : Ends (Client.run 0 reopeningNarrower .closed (⟨⟨[]⟩, []⟩ : Session Memory))
      (fun client reached => client.Changing (Transaction.Uproots 5) reached)
      (fun _ _ => False) := by
    decide +kernel
  rcases runs.exists_ok (fun _ _ => id) with ⟨client, reached, ran, changing⟩
  rcases changing.exists_transaction with ⟨transaction, rfl, uproots⟩
  rcases uproots.exists_ok (fun _ _ => id) with ⟨_, after, inserts, different⟩
  have calm : Session.Calm (⟨⟨[]⟩, []⟩ : Session Memory) := trivial
  exact ⟨transaction, reached, after, ran, inserts, different,
    run_insert_ne_fault calm (Or.inl rfl) ran [5] ⟨[5], by decide⟩⟩

end PagedMap
