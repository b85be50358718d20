import PagedMap.Proofs.Tree.Copying
import PagedMap.Proofs.Tree.Overwriting
import PagedMap.Proofs.Tree.Owning
import PagedMap.Proofs.Tree.Refinement
import PagedMap.Proofs.Tree.Structure

/-!
# A tree that shares its pager

The pager of a tree may hold pages of others. They may append pages at any time, also while a
transaction is under way, and overwrite whatever the tree does not own, now or when the transaction
began. The tree does not notice: it answers as a map does. Others do not notice the tree either,
since it overwrites only what is its own.
-/

namespace PagedMap

open PageList (fetch store)
open Transaction (Secured Endures)

variable {σ : Type} [Pager σ] [AtomicPager σ]

/-- The pages that belong to a client. During a transaction these are the pages of the tree as it is
and as it was, and the copies. -/
def Client.Owns (began pages : List Page) (client : Client) (target : PageIndex) : Prop :=
  match client with
  | .closed => False
  | .resting tree => tree.Owns pages target
  | .changing transaction => transaction.tree.Owns pages target ∨
    transaction.treeBefore.Owns began target ∨
      ∃ shadow ∈ transaction.shadows, shadow.copy = target

/-- How many commits the tree of a client counts. -/
def Client.sequence (client : Client) : Nat :=
  match client with
  | .closed => 0
  | .resting tree => tree.anchor.sequence.toNat
  | .changing transaction => transaction.tree.anchor.sequence.toNat

/-- A client and its account on a pager that others use as well. -/
structure Scene (σ : Type) where
  client : Client
  account : Account
  /-- The pages when the last transaction began. -/
  began : List Page
  /-- The pages that the last transaction was asked to copy. -/
  copied : List PageIndex
  session : Session σ

/-- What an action leads to. -/
def Scene.act (scene : Scene σ) (action : Action) (client : Client) (after : Session σ) :
    Scene σ where
  client := client
  account := scene.account.next action
  began := match action, scene.client with
    | .start, .resting _ => scene.session.pages
    | _, _ => scene.began
  copied := match action, scene.client with
    | .start, .resting _ => []
    | .call call, .changing _ => call.asks ++ scene.copied
    | _, _ => scene.copied
  session := after

/-- The actions and questions of a client, mingled with what others do, who spare some pages. They
append pages, and overwrite those that the client does not own. -/
inductive Mingles (index : PageIndex) (Spared : PageIndex → Prop) (start : Scene σ) :
    Scene σ → Prop where
  | none : Mingles index Spared start start
  | acted {scene : Scene σ} {action : Action} {client : Client} {after : Session σ}
      (earlier : Mingles index Spared start scene)
      (performed : action.perform index scene.client scene.session = .ok client after) :
      Mingles index Spared start (scene.act action client after)
  | asked {scene : Scene σ} {tree : Tree} (earlier : Mingles index Spared start scene)
      (resting : scene.client = .resting tree) (question : Question) :
      Mingles index Spared start { scene with session := question.leaves tree scene.session }
  | appended {scene : Scene σ} {page : Page} {target : PageIndex} {device : σ}
      (earlier : Mingles index Spared start scene)
      (appends : Pager.appendPage page scene.session.device = .ok target device) :
      Mingles index Spared start { scene with session := { scene.session with device } }
  | overwritten {scene : Scene σ} {old page : Page} {target : PageIndex} {device : σ}
      (earlier : Mingles index Spared start scene)
      (present : fetch scene.session.pages target = some old)
      (foreign : ¬ scene.client.Owns scene.began scene.session.pages target)
      (unspared : ¬ Spared target)
      (overwrites : Pager.writePage page target scene.session.device = .ok () device) :
      Mingles index Spared start { scene with session := { scene.session with device } }

/-- The pages that a tree never changes again: the sentinel, the parts of values, copies, and the
pages that it does not own, unless the client had such a page copied before others changed it. -/
inductive Scene.Fixed (scene : Scene σ) (target : PageIndex) : Prop where
  | sentinel {tree : Tree} (has : scene.client.tree? = some tree)
      (isSentinel : target = tree.anchor.sentinel)
  | part {tree : Tree} (has : scene.client.tree? = some tree)
      (reached : Reached scene.session.pages tree.anchor .part target)
  | partBefore {transaction : Transaction} (changing : scene.client = .changing transaction)
      (reached : Reached scene.began transaction.anchorBefore .part target)
  | copy {transaction : Transaction} {shadow : Shadow}
      (changing : scene.client = .changing transaction) (member : shadow ∈ transaction.shadows)
      (isCopy : target = shadow.copy)
  | foreign (foreign : ¬ scene.client.Owns scene.began scene.session.pages target)
      (agrees : target ∈ scene.copied → ∀ transaction, scene.client = .changing transaction →
        ∀ shadow ∈ transaction.shadows, shadow.page = target →
          fetch scene.session.pages shadow.copy = fetch scene.session.pages target)

/-- A client and others do not trouble each other. -/
structure Scene.Untroubled (index : PageIndex) (scene : Scene σ) : Prop where
  answers : scene.account.Answers scene.client scene.session
  /-- An action fails only if there are no more page indices or commit numbers, and it overwrites no
  other pages than it may. -/
  goesOn : ∀ action : Action, Ends (action.perform index scene.client scene.session)
    (fun _ after => IncludesApart
      (action.Overwrites index scene.client scene.session after.pages)
      scene.session.pages after.pages)
    (fun _ after => Halts (scene.client.sequence + action.commits) after)
  /-- A transaction that gives up overwrites only pages that were copied. -/
  givesUp : ∀ transaction middle after, scene.client = .changing transaction →
    GivesUp ⟨transaction, scene.session⟩ middle after →
      IncludesApart (middle.held.shadows.covers · = true) middle.session.pages after.session.pages
  /-- Besides the pages that it was asked to copy, a transaction has copied only pages that were the
  tree's own when it began. -/
  copies : ∀ transaction, scene.client = .changing transaction →
    ∀ shadow ∈ transaction.shadows,
      transaction.treeBefore.Owns scene.began shadow.page ∨ shadow.page ∈ scene.copied
  /-- Whatever happens, if others spare a page that is fixed, it stays as it is. -/
  lasting : ∀ target page later, scene.Fixed target → fetch scene.session.pages target = some page →
    Mingles index (· = target) scene later → fetch later.session.pages target = some page

/-! ## Secure scenes -/

/-- A tree is kept beside other pages, some of which stay as they are. -/
inductive Scene.Secure (index : PageIndex) (last : PageIndex → Page → Prop) : Scene σ → Prop where
  | resting {tree : Tree} {contents : Contents} {began : List Page} {copied : List PageIndex}
      {session : Session σ}
      (rests : Rests index 255 tree.anchor.sequence.toNat contents tree session)
      (lasts : ∀ target page, last target page →
        tree.Exempts session.pages target ∧ fetch session.pages target = some page) :
      Secure index last ⟨.resting tree, .resting contents, began, copied, session⟩
  | changing {transaction : Transaction} {before now : Contents} {began base : List Page}
      {copied : List PageIndex} {earlier outline : Outline} {session : Session σ}
      (secured : Secured index began base earlier outline before now ⟨transaction, session⟩)
      (copies : ∀ shadow ∈ transaction.shadows,
        transaction.treeBefore.Owns began shadow.page ∨ shadow.page ∈ copied)
      (lasts : ∀ target page, last target page →
        Endures began base target page (⟨transaction, session⟩ : Holding Transaction σ)) :
      Secure index last ⟨.changing transaction, .changing before now, began, copied, session⟩

namespace Scene.Secure

variable {index : PageIndex} {last : PageIndex → Page → Prop} {Spared : PageIndex → Prop}
  {scene start : Scene σ}

theorem sound (secure : scene.Secure index last) :
    Sound index 255 scene.client.sequence scene.account scene.client scene.session := by
  cases secure with
  | resting rests lasts => exact .resting rests
  | changing secured copies lasts => exact .changing secured.changes

/-- The end of a transaction is secure if the tree rests after it and what is to last has stayed. -/
theorem finish_ends {action : TransactionM σ Unit} {transaction : Transaction}
    {session : Session σ} {contents : Contents} {began : List Page} {copied : List PageIndex}
    {count : Nat}
    (ends : Ends (action ⟨transaction, session⟩)
      (fun _ after => Rests index 255 count contents after.held.tree after.session ∧
        ∀ target page, last target page → after.held.tree.Exempts after.session.pages target ∧
          fetch after.session.pages target = some page)
      (fun _ _ => True)) :
    Ends (Client.finish transaction action session)
      (fun client after =>
        (⟨client, .resting contents, began, copied, after⟩ : Scene σ).Secure index last)
      (fun _ _ => True) := by
  apply Client.finish_ends
  apply ends.mono
  · rintro _ after ⟨rests, lasts⟩
    exact .resting { rests with counted := Nat.le_refl _ } lasts
  · exact fun _ _ => id

section Perform

variable {tree : Tree} {transaction : Transaction} {contents before now : Contents}
  {began base : List Page} {copied : List PageIndex} {earlier outline : Outline}
  {session : Session σ}

/-- Between transactions only one that starts or a tree that is opened again does anything. No page
is written then. -/
theorem resting_perform_ends
    (rests : Rests index 255 tree.anchor.sequence.toNat contents tree session)
    (lasts : ∀ target page, last target page →
      tree.Exempts session.pages target ∧ fetch session.pages target = some page)
    (action : Action) :
    Ends (action.perform index (.resting tree) session)
      (fun client after => (Scene.act ⟨.resting tree, .resting contents, began, copied, session⟩
        action client after).Secure index last)
      (fun _ _ => True) := by
  have stays : Scene.Secure index last
      ⟨.resting tree, .resting contents, began, copied, session⟩ := .resting rests lasts
  rcases rests.keeps with ⟨outline, keeps⟩
  cases action with
  | opening config =>
      obtain rfl := rests.anchorIndex_eq
      have opens := (keeps.openOrCreate_consults config session rfl).and
        (rests.opening_ends config config.maxEntries_le)
      apply Ends.bind (opens.mono (fun _ _ => id) fun _ _ _ => trivial)
      rintro _ after ⟨⟨rfl, still⟩, restsLater, _⟩
      refine .resting restsLater ?_
      rw [still.pages_eq]
      exact fun target page inLast =>
        ⟨⟨(lasts target page inLast).1.notAnchor, (lasts target page inLast).1.notChild⟩,
          (lasts target page inLast).2⟩
  | start =>
      apply Ends.bind ((Transaction.start_ends tree session).mono (fun _ _ => id)
        fun _ _ _ => trivial)
      rintro _ after ⟨rfl, still, room⟩
      refine .changing (Secured.of_start keeps rests.anchorIndex_eq rests.calm still room)
        (fun _ member => absurd member List.not_mem_nil) ?_
      intro target page inLast
      rcases lasts target page inLast with ⟨exempts, present⟩
      exact Secured.endures_start exempts present still
  | call call => exact stays
  | commit => exact stays
  | rollback => exact stays
  | drop => exact stays

/-- During a transaction a call may add copies, of pages of the tree or of the one that the call
names. -/
theorem changing_perform_ends
    (secured : Secured index began base earlier outline before now ⟨transaction, session⟩)
    (copies : ∀ shadow ∈ transaction.shadows,
      transaction.treeBefore.Owns began shadow.page ∨ shadow.page ∈ copied)
    (lasts : ∀ target page, last target page →
      Endures began base target page (⟨transaction, session⟩ : Holding Transaction σ))
    (action : Action) :
    Ends (action.perform index (.changing transaction) session)
      (fun client after => (Scene.act
        ⟨.changing transaction, .changing before now, began, copied, session⟩ action client
          after).Secure index last)
      (fun _ _ => True) := by
  have stays := Secure.changing secured copies lasts
  have undoable := secured.maintains.undoable
  -- However a transaction is given up, the tree is the one from before it.
  have undone : ∀ {after : Holding Transaction σ},
      Transaction.Aborted base ⟨transaction, session⟩ after →
      Rests index 255 transaction.tree.anchor.sequence.toNat before after.held.tree
          after.session ∧
        ∀ target page, last target page → after.held.tree.Exempts after.session.pages target ∧
          fetch after.session.pages target = some page := by
    intro after aborted
    exact ⟨(secured.changes.undone undoable secured.keepsBase aborted).1,
      fun target page inLast => secured.endures_aborted aborted (lasts target page inLast)⟩
  cases action with
  | opening config => exact stays
  | start => exact stays
  | call call =>
      apply Action.call_ends
      have bounded : transaction.tree.config.maxEntries ≤ 255 :=
        transaction.tree.config.maxEntries_le
      apply ((Transaction.attempt_continues secured.maintains secured.active (Nat.le_refl _) bounded
        call).and (Transaction.attempt_copies secured.maintains secured.active (Nat.le_refl _)
          bounded call)).mono
      · rintro _ after ⟨continues, made⟩
        rcases secured.goesOn continues with ⟨later, securedLater⟩
        refine .changing securedLater (fun shadow member => ?_) fun target page inLast =>
          secured.goesOn_endures continues (lasts target page inLast)
        rw [continues.advances.treeBefore_eq]
        rcases securedLater.exists_copied member with ⟨page, present⟩
        rcases made.shadows shadow member with earlier | exposes | asked
        · exact (copies shadow earlier).imp_right (List.mem_append_right _)
        · exact Or.inl (secured.owned_of_exposes exposes present)
        · exact Or.inr (List.mem_append_left _ asked)
      · exact fun _ _ _ => trivial
  | commit =>
      apply finish_ends
      have commits := (Transaction.commit_ends secured.maintains secured.active).and
        secured.changes.commit_ends
      apply commits.mono
      · rintro _ after ⟨committed, rests, _⟩
        exact ⟨rests, fun target page inLast =>
          secured.endures_committed committed (lasts target page inLast)⟩
      · exact fun _ _ _ => trivial
  | rollback =>
      apply finish_ends
      apply (Transaction.rollback_ends undoable secured.active).mono
      · exact fun _ after aborted => undone aborted
      · exact fun _ _ _ => trivial
  | drop =>
      apply finish_ends
      apply (Transaction.drop_ends undoable secured.active).mono
      · exact fun _ after aborted => undone aborted
      · exact fun _ _ _ => trivial

/-- A secure scene stays secure with each action. -/
theorem perform_ends (secure : scene.Secure index last) (action : Action) :
    Ends (action.perform index scene.client scene.session)
      (fun client after => (scene.act action client after).Secure index last)
      (fun _ _ => True) := by
  cases secure with
  | resting rests lasts => exact resting_perform_ends rests lasts action
  | changing secured copies lasts => exact changing_perform_ends secured copies lasts action

end Perform

/-! ## What others do -/

/-- Asking a tree changes no page. -/
theorem asked {tree : Tree} (secure : scene.Secure index last)
    (resting : scene.client = .resting tree) (question : Question) :
    ({ scene with session := question.leaves tree scene.session } : Scene σ).Secure index last := by
  cases secure with
  | changing secured copies lasts => contradiction
  | resting rests lasts =>
      injection resting with same
      subst same
      rcases rests.keeps with ⟨outline, keeps⟩
      have still := keeps.asked question
      refine .resting { rests with keeps := ⟨outline, ?_⟩, calm := still.calm rests.calm } ?_
      · rw [still.pages_eq]
        exact keeps
      · rw [still.pages_eq]
        exact lasts

/-- A page that somebody else appends takes an index that nothing of the tree has. -/
theorem appended {page : Page} {target : PageIndex} {device : σ} (secure : scene.Secure index last)
    (appends : Pager.appendPage page scene.session.device = .ok target device) :
    ({ scene with session := { scene.session with device } } : Scene σ).Secure index last := by
  rcases (AtomicPager.appendPage_ends page scene.session.device).of_ok appends with
    ⟨_, _, pages_eq, calm⟩
  have longer : scene.session.pages <+: ({ scene.session with device } : Session σ).pages :=
    ⟨[page], pages_eq.symm⟩
  cases secure with
  | resting rests lasts =>
      rcases rests.keeps with ⟨outline, keeps⟩
      have keepsAfter := keeps.keep (includes_of_longer longer)
      refine .resting { rests with keeps := ⟨outline, keepsAfter⟩, calm := calm rests.calm } ?_
      intro target page inLast
      rcases lasts target page inLast with ⟨exempts, present⟩
      exact ⟨keeps.exempts_same keepsAfter rfl exempts, includes_of_longer longer _ _ present⟩
  | changing secured copies lasts =>
      have continues := secured.maintains.continues_of_longer longer calm
      rcases secured.goesOn continues with ⟨later, securedLater⟩
      exact .changing securedLater copies fun target page inLast =>
        secured.goesOn_endures continues (lasts target page inLast)

/-- A page that somebody else overwrites is none that the tree reads or would bring back. -/
theorem overwritten {old page : Page} {target : PageIndex} {device : σ}
    (secure : scene.Secure index last) (spared : ∀ page, ¬ last target page)
    (present : fetch scene.session.pages target = some old)
    (foreign : ¬ scene.client.Owns scene.began scene.session.pages target)
    (overwrites : Pager.writePage page target scene.session.device = .ok () device) :
    ({ scene with session := { scene.session with device } } : Scene σ).Secure index last := by
  rcases (AtomicPager.writePage_ends present).of_ok overwrites with ⟨pages_eq, calm⟩
  have different : ∀ {other otherPage}, last other otherPage → target ≠ other := by
    rintro other otherPage inLast rfl
    exact spared otherPage inLast
  cases secure with
  | @resting tree contents began copied session rests lasts =>
      rcases rests.keeps with ⟨outline, keeps⟩
      have keepsAfter := keeps.keep_store present foreign page
      have stored : ({ session with device } : Session σ).pages = store session.pages target page :=
        pages_eq
      refine .resting { rests with keeps := ⟨outline, ?_⟩, calm := calm rests.calm } ?_
      · rw [stored]
        exact keepsAfter
      · intro other otherPage inLast
        rcases lasts other otherPage inLast with ⟨exempts, otherPresent⟩
        rw [stored, PageList.fetch_store_of_ne present (different inLast)]
        exact ⟨keeps.exempts_same keepsAfter rfl exempts, otherPresent⟩
  | @changing transaction before now began base copied earlier outline session secured copies
      lasts =>
      simp only [Client.Owns, not_or, not_exists, not_and] at foreign
      rcases foreign with ⟨foreignNow, foreignBefore, notCopy⟩
      refine .changing (secured.disturb present foreignNow foreignBefore notCopy pages_eq calm) copies
        fun other otherPage inLast => ?_
      exact secured.disturb_endures present foreignNow pages_eq (different inLast)
        (lasts other otherPage inLast)

/-- Whatever a client and others do, a scene stays secure. -/
theorem mingles (secure : start.Secure index last)
    (spared : ∀ target page, last target page → Spared target)
    (mingles : Mingles index Spared start scene) : scene.Secure index last := by
  induction mingles with
  | none => exact secure
  | acted _ performed ih => exact (ih.perform_ends _).of_ok performed
  | asked _ resting question ih => exact ih.asked resting question
  | appended _ appends ih => exact ih.appended appends
  | overwritten _ present foreign unspared overwrites ih =>
      exact ih.overwritten (fun page inLast => unspared (spared _ page inLast)) present foreign
        overwrites

/-- What is fixed may be counted among the pages that stay as they are. -/
theorem fixed {target : PageIndex} {page : Page} (secure : scene.Secure index last)
    (fixed : scene.Fixed target) (present : fetch scene.session.pages target = some page) :
    scene.Secure index fun other otherPage => other = target ∧ otherPage = page := by
  -- Pages may be fixed for more reasons while a transaction is under way.
  cases secure with
  | @resting tree contents began copied session rests lasts =>
      refine .resting rests ?_
      rintro _ _ ⟨rfl, rfl⟩
      refine ⟨?_, present⟩
      rcases rests.keeps with ⟨outline, keeps⟩
      cases fixed with
      | sentinel has isSentinel =>
          injection has with same
          subst same isSentinel
          exact keeps.exempts_sentinel
      | part has reached =>
          injection has with same
          subst same
          exact keeps.exempts_part (keeps.retains.belongs_of_reached reached)
      | partBefore changing reached => contradiction
      | copy changing member isCopy => contradiction
      | foreign foreign agrees => exact Tree.exempts_of_not_owns foreign
  | @changing transaction before now began base copied earlier outline session secured copies
      lasts =>
      refine .changing secured copies ?_
      rintro _ _ ⟨rfl, rfl⟩
      have keeps := secured.maintains.keeps
      cases fixed with
      | sentinel has isSentinel =>
          injection has with same
          subst same isSentinel
          exact secured.endures_sentinel present
      | part has reached =>
          injection has with same
          subst same
          exact secured.endures_part (keeps.retains.belongs_of_reached reached) present
      | partBefore changing reached =>
          injection changing with same
          subst same
          exact secured.endures_partBefore (secured.keptBefore.retains.belongs_of_reached reached)
            present
      | copy changing member isCopy =>
          injection changing with same
          subst same isCopy
          exact secured.endures_copy member present
      | foreign foreign agrees =>
          simp only [Client.Owns, not_or] at foreign
          refine secured.endures_foreign foreign.1 foreign.2.1 ?_ present
          -- The tree did not own the page, so if it was copied, the client had asked for that.
          rintro shadow member rfl
          rcases copies shadow member with owned | asked
          · exact absurd owned foreign.2.1
          · exact agrees asked transaction rfl shadow member rfl

theorem present {target : PageIndex} {page : Page} (secure : scene.Secure index last)
    (inLast : last target page) : fetch scene.session.pages target = some page := by
  cases secure with
  | resting rests lasts => exact (lasts target page inLast).2
  | changing secured copies lasts => exact (lasts target page inLast).present

/-- A transaction does not come to own a page that was there when it began and was not the tree's
own. -/
theorem foreign_now {transaction : Transaction} {target : PageIndex} {page : Page}
    (secure : scene.Secure index last) (changing : scene.client = .changing transaction)
    (present : fetch scene.began target = some page)
    (foreign : ¬ transaction.treeBefore.Owns scene.began target) :
    ¬ scene.client.Owns scene.began scene.session.pages target := by
  cases secure with
  | resting rests lasts => contradiction
  | changing secured copies lasts =>
      injection changing with same
      subst same
      rintro (owned | ownedBefore | ⟨shadow, member, isCopy⟩)
      · exact foreign (secured.owned_before owned present)
      · exact foreign ownedBefore
      · exact secured.copy_ne present member isCopy

/-- A transaction that has just started has the tree from before it. -/
theorem changing_of_start {tree : Tree} {client : Client} {session after : Session σ}
    (starts : Action.start.perform index (.resting tree) session = .ok client after) :
    client = .changing (Transaction.atStart tree session.pages) := by
  have begins : Ends (Action.start.perform index (.resting tree) session)
      (fun client _ => client = .changing (Transaction.atStart tree session.pages))
      (fun _ _ => True) := by
    apply Ends.bind ((Transaction.start_ends tree session).mono (fun _ _ => id)
      fun _ _ _ => trivial)
    rintro _ _ ⟨rfl, _⟩
    rfl
  exact begins.of_ok starts

/-- With a call the same transaction goes on. -/
theorem called {call : Call} {transaction : Transaction} {client : Client} {after : Session σ}
    (secure : scene.Secure index last) (changing : scene.client = .changing transaction)
    (performed : (Action.call call).perform index scene.client scene.session = .ok client after) :
    ∃ later, client = .changing later ∧ later.treeBefore = transaction.treeBefore := by
  cases secure with
  | resting rests lasts => contradiction
  | @changing held before now began base copied earlier outline session secured copies lasts =>
      injection changing with same
      subst same
      have calls : Ends ((Action.call call).perform index (.changing held) session)
          (fun client _ => ∃ later, client = .changing later ∧ later.treeBefore = held.treeBefore)
          (fun _ _ => True) := by
        apply Action.call_ends
        apply (Transaction.attempt_continues secured.maintains secured.active (Nat.le_refl _)
          (Config.maxEntries_le _) call).mono
        · exact fun _ after continues => ⟨after.held, rfl, continues.advances.treeBefore_eq⟩
        · exact fun _ _ _ => trivial
      exact calls.of_ok performed

/-- In a secure scene neither a client nor the others trouble each other. -/
theorem untroubled (secure : scene.Secure index last) : scene.Untroubled index where
  answers := secure.sound.answers
  goesOn action := by
    have admitted : action.Admitted 255 :=
      Action.admitted (fun config _ => config.maxEntries_le) action (List.mem_singleton.mpr rfl)
    apply ((secure.sound.perform_overwrites (Nat.le_refl _) action).and
      (secure.sound.perform_ends (Nat.le_refl _) admitted)).mono
    · exact fun _ _ => And.left
    · exact fun _ _ => And.right
  givesUp transaction middle after changing givesUp := by
    cases secure with
    | resting rests lasts => contradiction
    | changing secured copies lasts =>
        injection changing with same
        subst same
        exact (secured.stands.givenUp givesUp).aborted.apart
  copies transaction changing := by
    cases secure with
    | resting rests lasts => contradiction
    | changing secured copies lasts =>
        injection changing with same
        subst same
        exact copies
  lasting target page later fixed present mingles := by
    have stays := (secure.fixed fixed present).mingles
      (fun other otherPage inLast => inLast.1) mingles
    exact stays.present ⟨rfl, rfl⟩

/-- A tree that was just made is secure. -/
theorem of_opens {config : Config} {tree : Tree} {session after : Session σ} (calm : session.Calm)
    (creatable : Creatable session.pages index)
    (opens : Tree.openOrCreate index config session = .ok tree after) :
    Scene.Secure index (fun _ _ => False)
      ⟨.resting tree, .resting .empty, after.pages, [], after⟩ := by
  have opening : Ends (Tree.openOrCreate index config session)
      (fun tree after => Rests index 255 0 .empty tree after ∧ session.Grows after)
      (fun _ after => Halts 0 after) :=
    opening_ends config config.maxEntries_le creatable calm
  have rests := (opening.of_ok opens).1
  exact .resting { rests with counted := Nat.le_refl _ } fun _ _ => False.elim

end Scene.Secure

/-- A tree is made on a pager that others use. Whatever they do then with pages that the tree does
not own, and whatever is done with the tree, neither troubles the other. -/
theorem mingles_untroubled {index : PageIndex} {config : Config} {tree : Tree}
    {session after : Session σ} {scene : Scene σ} (calm : session.Calm)
    (creatable : Creatable session.pages index)
    (opens : Tree.openOrCreate index config session = .ok tree after)
    (mingles : Mingles index (fun _ => False)
      ⟨.resting tree, .resting .empty, after.pages, [], after⟩ scene) :
    scene.Untroubled index := by
  have secure := Scene.Secure.of_opens calm creatable opens
  exact (secure.mingles (fun _ _ => id) mingles).untroubled

/-- A memory with one page of somebody else. -/
def othersPage : Session Memory := ⟨⟨[.blank]⟩, []⟩

/-- A tree made behind the page leaves it as it is, and does not own it. -/
theorem othersPage_spared {config : Config} {tree : Tree} {made : Session Memory}
    (opens : Tree.openOrCreate 1 config othersPage = .ok tree made) :
    fetch made.pages 0 = some .blank ∧ ¬ tree.Owns made.pages 0 := by
  have creatable : Creatable othersPage.pages 1 := Or.inl rfl
  have opened := (Tree.openOrCreate_ends config creatable).of_ok opens
  have there : fetch othersPage.pages 0 = some .blank := rfl
  have elsewhere : (0 : PageIndex) ≠ tree.anchorIndex := by
    rw [opened.anchorIndex_eq]
    decide
  exact ⟨opened.fresh.others 0 .blank elsewhere there, opened.fresh.not_owns there elsewhere⟩

/-- Behind the page a tree is made. Its owner overwrites the page and, while a transaction is under
way, appends another one. -/
theorem mingles_untroubled_memory : ∃ tree after scene,
    Tree.openOrCreate 1 .default othersPage = .ok tree after ∧
      Mingles 1 (fun _ => False) ⟨.resting tree, .resting .empty, after.pages, [], after⟩ scene ∧
      scene.account = .changing .empty (Contents.empty.insert [1] [2]) ∧ scene.Untroubled 1 := by
  let written : Page := (Leaf.empty 0).toPage
  have runs : Ends (Tree.openOrCreate 1 .default othersPage)
      (fun tree made => Ends (Pager.writePage written 0 made.device)
        (fun _ device => Ends (Action.start.perform 1 (.resting tree) { made with device })
          (fun client begun => Ends (Pager.appendPage written begun.device)
            (fun _ device => Ends ((Action.call (.insert [1] ⟨[2], by decide⟩)).perform 1 client
                { begun with device })
              (fun _ _ => True) (fun _ _ => False))
            (fun _ _ => False))
          (fun _ _ => False))
        (fun _ _ => False))
      (fun _ _ => False) := by
    decide +kernel
  rcases runs.exists_ok (fun _ _ => id) with ⟨tree, made, opens, others⟩
  rcases others.exists_ok (fun _ _ => id) with ⟨_, device, overwrites, starting⟩
  rcases starting.exists_ok (fun _ _ => id) with ⟨client, begun, starts, others⟩
  rcases others.exists_ok (fun _ _ => id) with ⟨_, larger, appends, calling⟩
  rcases calling.exists_ok (fun _ _ => id) with ⟨changed, last, calls, _⟩
  have calm : Session.Calm othersPage := trivial
  have creatable : Creatable othersPage.pages 1 := Or.inl rfl
  rcases othersPage_spared opens with ⟨present, foreign⟩
  have mingles : Mingles 1 (fun _ => False)
      ⟨.resting tree, .resting .empty, made.pages, [], made⟩ _ :=
    .acted (.appended (.acted (.overwritten .none present foreign id overwrites) starts) appends)
      calls
  exact ⟨tree, made, _, opens, mingles, rfl, mingles_untroubled calm creatable opens mingles⟩

theorem ne_leaf_of_kind {pages : List Page} {index : PageIndex} {leaf : Leaf}
    (notLeaf : (fetch pages index).bind Page.kind? ≠ some .leaf) :
    fetch pages index ≠ some leaf.toPage := by
  intro isLeaf
  rw [isLeaf, Option.bind_some, leaf.kind?_toPage] at notLeaf
  exact notLeaf rfl

/-- A page of somebody else that the client has copied is not safe from the client: it is brought
back as it was then, though its owner has overwritten it in the meantime. -/
theorem copied_page_reverted : ∃ tree made scene later,
    Tree.openOrCreate 1 .default othersPage = .ok tree made ∧
      Mingles 1 (fun _ => False) ⟨.resting tree, .resting .empty, made.pages, [], made⟩ scene ∧
      ¬ scene.client.Owns scene.began scene.session.pages 0 ∧
      fetch scene.session.pages 0 = some (Leaf.empty 0).toPage ∧
      Mingles 1 (· = 0) scene later ∧
      fetch later.session.pages 0 ≠ some (Leaf.empty 0).toPage := by
  have runs : Ends (Tree.openOrCreate 1 .default othersPage)
      (fun tree made => Ends (Action.start.perform 1 (.resting tree) made)
        (fun client begun => Ends ((Action.call (.shadow 0)).perform 1 client begun)
          (fun client called => (fetch called.pages 0).isSome = true ∧
            Ends (Pager.writePage (Leaf.empty 0).toPage 0 called.device)
              (fun _ device => Ends (Action.rollback.perform 1 client { called with device })
                (fun _ undone => (fetch undone.pages 0).bind Page.kind? ≠ some .leaf)
                (fun _ _ => False))
              (fun _ _ => False))
          (fun _ _ => False))
        (fun _ _ => False))
      (fun _ _ => False) := by
    decide +kernel
  rcases runs.exists_ok (fun _ _ => id) with ⟨tree, made, opens, starting⟩
  rcases starting.exists_ok (fun _ _ => id) with ⟨client, begun, starts, calling⟩
  rcases calling.exists_ok (fun _ _ => id) with ⟨_, called, calls, stored, overwriting⟩
  rcases overwriting.exists_ok (fun _ _ => id) with ⟨_, device, overwrites, undoing⟩
  rcases undoing.exists_ok (fun _ _ => id) with ⟨_, undone, rollsBack, notLeaf⟩
  have calm : Session.Calm othersPage := trivial
  have creatable : Creatable othersPage.pages 1 := Or.inl rfl
  rcases othersPage_spared opens with ⟨present, foreign⟩
  rcases Option.isSome_iff_exists.mp stored with ⟨old, unchanged⟩
  -- The scenes when the transaction has begun, and when the page has been copied.
  have secureMade := Scene.Secure.of_opens calm creatable opens
  have secureBegun := (secureMade.perform_ends .start).of_ok starts
  have secureCalled := (secureBegun.perform_ends (.call (.shadow 0))).of_ok calls
  obtain rfl := Scene.Secure.changing_of_start starts
  rcases secureBegun.called rfl calls with ⟨transaction, rfl, treeBefore_eq⟩
  have foreignBefore : ¬ transaction.treeBefore.Owns made.pages 0 := by
    rw [treeBefore_eq]
    exact foreign
  have foreignCalled := secureCalled.foreign_now rfl present foreignBefore
  have secureLater := secureCalled.overwritten (fun _ => id) unchanged foreignCalled overwrites
  have pages_eq : ({ called with device } : Session Memory).pages = store called.pages 0 _ :=
    ((AtomicPager.writePage_ends unchanged).of_ok overwrites).1
  refine ⟨tree, made, _, _, opens,
    .overwritten (.acted (.acted .none starts) calls) unchanged foreignCalled id overwrites,
    secureLater.foreign_now rfl present foreignBefore, ?_, .acted .none rollsBack,
    ne_leaf_of_kind notLeaf⟩
  exact (congrArg (fetch · 0) pages_eq).trans (PageList.fetch_store_same unchanged)

end PagedMap
