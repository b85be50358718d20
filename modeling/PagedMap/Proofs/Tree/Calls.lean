import PagedMap.Proofs.Tree.Putting
import PagedMap.Proofs.Tree.Undoing

/-!
# The calls of a transaction

What the calls on a transaction do that is under way, and what they answer when it has ended.
Inserting gives a key a value, or the pager fails and the transaction is undone. Lookups see what
was inserted. A call that fails for another reason changes nothing.
-/

namespace PagedMap

open PageList (fetch)
open HoldingM (within)

/-- A page header can count the keys that any configuration allows for. -/
theorem Config.maxEntries_le (config : Config) : config.maxEntries ≤ 255 :=
  Nat.sub_le_of_le_add config.le_maxFanout

/-- Nodes of a tree have at most four children, and nodes and leaves at most three keys. -/
def fourChildren : Config :=
  ⟨4, Nat.le_of_ble_eq_true rfl, Nat.le_of_ble_eq_true rfl⟩

/-- Bytes as a client can give them: no run of bytes in memory is longer. -/
abbrev Addressable : Type := { bytes : Bytes // bytes.length < Word.signedLimit }

namespace Transaction

variable {σ : Type} [Pager σ] [AtomicPager σ] {base : List Page} {limit : Nat}
  {outline : Outline} {contents : Contents} {holding : Holding Transaction σ} {key value : Bytes}

/-! ## Inserting -/

/-- A call failed in the middle, and all was undone. -/
structure GivenUp (base : List Page) (before middle after : Holding Transaction σ) : Prop where
  advances : Advances (fun _ => True) before middle
  undoable : Undoable base middle.held middle.session.pages
  aborted : Aborted base middle after

theorem Survives.givenUp {middle after : Holding Transaction σ}
    (survives : Survives base limit outline contents holding middle)
    (aborted : Aborted base middle after) : GivenUp base holding middle after :=
  ⟨survives.advances.mono fun _ _ _ _ => trivial, survives.undoable, aborted⟩

/-- Inserting gives a key a value. If the pager fails, the transaction is undone and ends. -/
theorem insert_ends (maintains : Maintains base limit outline contents holding)
    (active : holding.held.phase = .active) (bounded : limit ≤ 255)
    (roomy : holding.held.tree.config.maxEntries ≤ limit) (short : key.length ≤ maxKeySize)
    (addressable : value.length < Word.signedLimit) :
    Ends (insert key value holding)
      (fun _ after => Entered base limit outline contents key value holding after)
      (fun failure after => (∃ cause, failure = .error (.pager cause)) ∧
        ∃ middle, put key value holding = .error failure middle ∧
          GivenUp base holding middle after ∧
          (holding.session.Calm → Word.signedLimit ≤ middle.session.pages.length)) := by
  have puts := (put_ends maintains bounded roomy short addressable).and (Ends.self _ _)
  simp only [insert]
  rw [requireActive_bind active, if_neg (Nat.not_lt.mpr short)]
  apply Ends.tryCatch (puts.mono (fun _ _ => And.left) fun _ _ => id)
  rintro failure middle ⟨broken, fails⟩
  rcases broken.byPager with ⟨cause, rfl⟩
  have aborts := abort_ends broken.undoable
  apply Ends.bind (Ends.mono aborts (fun _ _ => id) fun _ _ => False.elim)
  intro _ after aborted
  exact ⟨⟨cause, rfl⟩, middle, fails, ⟨broken.advances, broken.undoable, aborted⟩, broken.full⟩

omit [AtomicPager σ] in
theorem insert_eq_of_long (active : holding.held.phase = .active)
    (long : maxKeySize < key.length) (value : Bytes) :
    insert key value holding = .error (.error (.keyTooLarge key.length maxKeySize)) holding := by
  simp only [insert]
  rw [requireActive_bind active, if_pos long]
  rfl

/-! ## Other calls -/

/-- A call that leaves the transaction as it is, apart from what the pager does. -/
theorem get?_ends (maintains : Maintains base limit outline contents holding)
    (active : holding.held.phase = .active) (key : Bytes) :
    Ends (get? key holding)
      (fun found after => found = contents key ∧ ∃ session, after = { holding with session } ∧
        holding.session.Still session)
      (fun failure after => ∃ session, after = { holding with session } ∧
        holding.session.Denied failure session) := by
  simp only [get?]
  rw [requireActive_bind active, HoldingM.held_bind]
  apply HoldingM.within_ends
  apply Ends.mono (maintains.keeps.get?_consults key holding.session rfl)
  · rintro found session ⟨found_eq, still⟩
    exact ⟨found_eq, session, rfl, still⟩
  · intro failure session denied
    exact ⟨session, rfl, denied⟩

/-- Asking a transaction for a key gives what the map of its tree says, and the transaction is as
before. -/
theorem contains_ends (maintains : Maintains base limit outline contents holding)
    (active : holding.held.phase = .active) (key : Bytes) :
    Ends (contains key holding)
      (fun found after => found = (contents key).isSome ∧
        ∃ session, after = { holding with session } ∧ holding.session.Still session)
      (fun failure after => ∃ session, after = { holding with session } ∧
        holding.session.Denied failure session) := by
  simp only [contains]
  rw [requireActive_bind active, HoldingM.held_bind]
  apply HoldingM.within_ends
  apply Ends.mono (maintains.keeps.contains_consults key holding.session rfl)
  · rintro found session ⟨found_eq, still⟩
    exact ⟨found_eq, session, rfl, still⟩
  · intro failure session denied
    exact ⟨session, rfl, denied⟩

omit [Pager σ] [AtomicPager σ] in
theorem erase_eq (active : holding.held.phase = .active) (key : Bytes) :
    erase key holding = .error (.error (.notImplemented "delete")) holding := by
  simp only [erase]
  rw [requireActive_bind active]
  rfl

/-! ## Copying any page -/

/-- The pager failed, and the transaction and its pages are as they were. -/
def Unchanged (before : Holding Transaction σ) (failure : Failure TreeError)
    (after : Holding Transaction σ) : Prop :=
  (∃ cause, failure = .error (.pager cause)) ∧ ∃ session, after = { before with session } ∧
    before.session.pages <+: session.pages ∧ (before.session.Calm → session.Calm)

/-- A page that is read in a transaction is the one that is there. -/
theorem readPage_any (index : PageIndex) (holding : Holding Transaction σ) :
    Ends (within (TreeM.readPage index) holding)
      (fun page after => fetch holding.session.pages index = some page ∧
        ∃ session, after = { holding with session } ∧ holding.session.Still session)
      (Unchanged holding) := by
  apply HoldingM.within_ends
  apply SessionM.relabel_ends
  apply SessionM.onDevice_ends
  apply Ends.mono (AtomicPager.readPage_any index holding.session.device)
  · rintro page after ⟨fetched, unchanged, calm⟩
    exact ⟨fetched, { holding.session with device := after }, rfl, unchanged, calm⟩
  · rintro error after ⟨unchanged, calm⟩
    refine ⟨⟨error, rfl⟩, { holding.session with device := after }, rfl, ?_, calm⟩
    change _ <+: AtomicPager.pages after
    rw [unchanged]
    exact List.prefix_refl _

/-- Pages were appended, and the transaction goes on with the same tree. -/
structure Extended (before after : Holding Transaction σ) : Prop where
  tree_eq : after.held.tree = before.held.tree
  phase_eq : after.held.phase = before.held.phase
  longer : before.session.pages <+: after.session.pages

/-- Copying a page appends at most one page, also when the transaction has ended. If a page cannot
be copied, the transaction is left as it is. -/
theorem shadow_extends (index : PageIndex) (holding : Holding Transaction σ) :
    Ends (shadow index holding)
      (fun _ after => Extended holding after ∧ (after = holding ∨
        ∃ page, fetch holding.session.pages index = some page))
      (Unchanged holding) := by
  simp only [shadow]
  rw [HoldingM.held_bind]
  split
  next => exact ⟨⟨rfl, rfl, List.prefix_refl _⟩, Or.inl rfl⟩
  next =>
    apply Ends.bind (readPage_any index holding)
    rintro page _ ⟨fetched, session, rfl, still⟩
    have appending : Ends (within (TreeM.appendPage page) { holding with session })
        (fun _ after => after.held = holding.held ∧
          holding.session.pages <+: after.session.pages) (Unchanged holding) := by
      apply HoldingM.within_ends
      apply Ends.mono (TreeM.appendPage_ends page session)
      · rintro copy after ⟨_, _, appended, _⟩
        refine ⟨rfl, [page], ?_⟩
        change _ = after.pages
        rw [appended, still.pages_eq]
      · intro failure after rejected
        refine ⟨rejected.byPager, after, rfl, ?_, fun calm => rejected.calm (still.calm calm)⟩
        rw [← still.pages_eq]
        exact rejected.longer
    apply Ends.bind appending
    rintro copy ⟨_, appended⟩ ⟨rfl, longer⟩
    exact ⟨⟨rfl, rfl, longer⟩, Or.inr ⟨page, fetched⟩⟩

/-- Copying any page, whether there is such a page or not, leaves the tree of a transaction as it
is. -/
theorem shadow_any (undoable : Undoable base holding.held holding.session.pages)
    (index : PageIndex) :
    Ends (shadow index holding)
      (fun _ after => Advances (fun _ => False) holding after ∧
        Undoable base after.held after.session.pages ∧ after.held.tree = holding.held.tree)
      (Unchanged holding) := by
  cases fetched : fetch holding.session.pages index with
  | some page =>
      apply ((shadow_ends undoable fetched).and (shadow_extends index holding)).mono
      · rintro _ after ⟨⟨advances, undoableAfter, tree_eq, _⟩, _⟩
        exact ⟨advances, undoableAfter, tree_eq⟩
      · intro failure after fails
        exact fails.2
  | none =>
      apply (shadow_extends index holding).mono
      · rintro _ after ⟨_, rfl | ⟨page, found⟩⟩
        · exact ⟨Advances.refl _, undoable, rfl⟩
        · rw [fetched] at found
          contradiction
      · intro failure after fails
        exact fails

end Transaction

/-- A call on a transaction that does not end it, unless the pager fails while inserting. -/
inductive Call where
  | insert (key : Bytes) (value : Addressable)
  | get? (key : Bytes)
  | contains (key : Bytes)
  | erase (key : Bytes)
  | shadow (index : PageIndex)

/-- Inserting a key of one byte, with itself as the value. -/
def insertByte (byte : UInt8) : Call := .insert [byte] ⟨[byte], Nat.le_of_ble_eq_true rfl⟩

namespace Call

open Transaction

variable {σ : Type} [Pager σ]

/-- Makes a call, whatever it answers. -/
def perform : Call → TransactionM σ Unit
  | insert key value => Transaction.insert key value.val
  | get? key => discard (Transaction.get? key)
  | contains key => discard (Transaction.contains key)
  | erase key => Transaction.erase key
  | shadow index => Transaction.shadow index

/-- The contents after a call; a key that is too long is refused. -/
def applied (contents : Contents) : Call → Contents
  | insert key value => if key.length ≤ maxKeySize then contents.insert key value.val else contents
  | _ => contents

/-- A call failed, and the transaction goes on, or the pager failed while a key was being inserted,
and the transaction was undone. -/
def Fails [AtomicPager σ] (base : List Page) (limit : Nat) (outline : Outline)
    (contents : Contents) (before : Holding Transaction σ) (failure : Failure TreeError)
    (after : Holding Transaction σ) : Prop :=
  (∃ error, failure = .error error) ∧ (Continues base limit outline contents before after ∨
    ∃ middle, GivenUp base before middle after ∧
      (before.session.Calm → Word.signedLimit ≤ middle.session.pages.length))

variable [AtomicPager σ] {base : List Page} {limit : Nat} {outline : Outline} {contents : Contents}
  {holding : Holding Transaction σ}

/-- A question that has an answer changes nothing, so the transaction goes on after it. -/
theorem asked_ends {α : Type} (maintains : Maintains base limit outline contents holding)
    {question : TransactionM σ α} {answer : α → Prop}
    (asked : Ends (question holding)
      (fun value after => answer value ∧ ∃ session, after = { holding with session } ∧
        holding.session.Still session)
      (fun failure after => ∃ session, after = { holding with session } ∧
        holding.session.Denied failure session)) :
    Ends ((discard question : TransactionM σ Unit) holding)
      (fun _ after => Continues base limit outline contents holding after ∧
        Includes holding.session.pages after.session.pages)
      (fun failure after => (∃ error, failure = .error error) ∧
        Continues base limit outline contents holding after ∧
        Includes holding.session.pages after.session.pages) := by
  apply Ends.bind (Ends.mono asked (fun _ _ => id) ?_)
  · rintro value _ ⟨_, session, rfl, still⟩
    exact ⟨maintains.continues_of_still still, includes_of_longer still.longer⟩
  · rintro failure _ ⟨session, rfl, denied⟩
    rcases denied.byPager with ⟨cause, rfl⟩
    have still := denied.still
    exact ⟨⟨_, rfl⟩, maintains.continues_of_still still, includes_of_longer still.longer⟩

/-- A call that does not insert leaves the transaction under way, even if it fails, and it
overwrites no page. -/
theorem perform_ends_of_no_insert (maintains : Maintains base limit outline contents holding)
    (active : holding.held.phase = .active) {call : Call}
    (noInsert : ∀ key value, call ≠ .insert key value) :
    Ends (call.perform holding)
      (fun _ after => Continues base limit outline contents holding after ∧
        Includes holding.session.pages after.session.pages)
      (fun failure after => (∃ error, failure = .error error) ∧
        Continues base limit outline contents holding after ∧
        Includes holding.session.pages after.session.pages) := by
  cases call with
  | insert key value => exact absurd rfl (noInsert key value)
  | get? key => exact asked_ends maintains (get?_ends maintains active key)
  | contains key => exact asked_ends maintains (contains_ends maintains active key)
  | erase key =>
      change Ends (Transaction.erase key holding) _ _
      rw [erase_eq active key]
      exact ⟨⟨_, rfl⟩, maintains.continues_of_still (Session.Still.refl _), fun _ _ => id⟩
  | shadow index =>
      apply Ends.mono (shadow_any maintains.undoable index)
      · rintro _ after ⟨advances, undoable, tree_eq⟩
        exact ⟨maintains.continues advances undoable tree_eq,
          fun other page fetched => advances.kept other page id fetched⟩
      · rintro failure _ ⟨⟨cause, rfl⟩, session, rfl, longer, calm⟩
        exact ⟨⟨_, rfl⟩, maintains.continues_of_longer longer calm, includes_of_longer longer⟩

/-- Whatever is called, the transaction goes on, or it is undone. -/
theorem perform_ends (maintains : Maintains base limit outline contents holding)
    (active : holding.held.phase = .active) (bounded : limit ≤ 255)
    (roomy : holding.held.tree.config.maxEntries ≤ limit) (call : Call) :
    Ends (call.perform holding)
      (fun _ after => Continues base limit outline (call.applied contents) holding after)
      (Fails base limit outline (call.applied contents) holding) := by
  have other : (∀ key value, call ≠ .insert key value) → Ends (call.perform holding)
      (fun _ after => Continues base limit outline contents holding after)
      (Fails base limit outline contents holding) := by
    intro noInsert
    apply Ends.mono (perform_ends_of_no_insert maintains active noInsert) fun _ _ => And.left
    rintro failure after ⟨isError, continues, _⟩
    exact ⟨isError, Or.inl continues⟩
  cases call with
  | insert key value =>
      by_cases short : key.length ≤ maxKeySize
      · have applied_eq : applied contents (insert key value) = contents.insert key value.val :=
          if_pos short
        rw [applied_eq]
        apply Ends.mono (insert_ends maintains active bounded roomy short value.2)
          fun _ _ => Entered.continues
        rintro failure after ⟨⟨cause, rfl⟩, middle, _, givenUp, full⟩
        exact ⟨⟨_, rfl⟩, Or.inr ⟨middle, givenUp, full⟩⟩
      · have applied_eq : applied contents (insert key value) = contents := if_neg short
        rw [applied_eq]
        change Ends (Transaction.insert key value.val holding) _ _
        rw [insert_eq_of_long active (Nat.lt_of_not_le short) value.val]
        exact ⟨⟨_, rfl⟩, Or.inl (maintains.continues_of_still (Session.Still.refl _))⟩
  | get? key => exact other (by simp)
  | contains key => exact other (by simp)
  | erase key => exact other (by simp)
  | shadow index => exact other (by simp)

end Call

end PagedMap
