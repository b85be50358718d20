import PagedMap.Proofs.Tree.Runs

/-!
# What actions overwrite

Of the pages that are there, inserting overwrites at most the leaf where the search for the key
ends, the nodes on the way up to the first one that is not split, and the anchor page if all are.
A commit overwrites the anchor page, and undoing a transaction overwrites pages that were copied.
Nothing else that is done with a tree overwrites a page.
-/

namespace PagedMap

open PageList (fetch)

variable {σ : Type} [Pager σ] [AtomicPager σ] {limit count : Nat} {index : PageIndex}
  {session : Session σ}

/-- The pages that a call on a transaction may overwrite, if it leaves some pages behind. -/
def Call.Overwrites (call : Call) (holding : Holding Transaction σ) (after : List Page)
    (target : PageIndex) : Prop :=
  match call with
  | .insert key _ => ∃ found reached,
    holding.held.tree.descend key holding.session = .ok found reached ∧
      found.Climbs holding.session.pages after holding.held.tree.anchorIndex target
  | _ => False

/-- The pages that an action may overwrite, if it leaves some pages behind. -/
def Action.Overwrites (anchorIndex : PageIndex) (action : Action) (client : Client)
    (session : Session σ) (after : List Page) (target : PageIndex) : Prop :=
  match action, client with
  | .opening _, .closed => target = anchorIndex
  | .call made, .changing transaction => made.Overwrites ⟨transaction, session⟩ after target
  | .commit, .changing transaction => target = transaction.tree.anchorIndex
  | .rollback, .changing transaction => transaction.shadows.covers target = true
  | .drop, .changing transaction => transaction.shadows.covers target = true
  | _, _ => False

/-- A call overwrites no other pages, unless it ends the transaction. -/
theorem Call.perform_overwrites {base : List Page} {outline : Outline} {contents : Contents}
    {holding : Holding Transaction σ}
    (maintains : Transaction.Maintains base limit outline contents holding)
    (active : holding.held.phase = .active) (bounded : limit ≤ 255)
    (roomy : holding.held.tree.config.maxEntries ≤ limit) (call : Call) :
    Ends (call.perform holding)
      (fun _ after => IncludesApart (call.Overwrites holding after.session.pages)
        holding.session.pages after.session.pages)
      (fun failure after => (∃ error, failure = .error error) ∧
        (after.held.phase = .active ∧ IncludesApart (call.Overwrites holding after.session.pages)
            holding.session.pages after.session.pages ∨ after.held.phase ≠ .active)) := by
  -- Only inserting overwrites pages. Other calls append one at most.
  have other : (∀ key value, call ≠ .insert key value) → Ends (call.perform holding)
      (fun _ after => IncludesApart (call.Overwrites holding after.session.pages)
        holding.session.pages after.session.pages)
      (fun failure after => (∃ error, failure = .error error) ∧
        (after.held.phase = .active ∧ IncludesApart (call.Overwrites holding after.session.pages)
            holding.session.pages after.session.pages ∨ after.held.phase ≠ .active)) := by
    intro noInsert
    apply (perform_ends_of_no_insert maintains active noInsert).mono
    · exact fun _ after both => both.2.apart
    · rintro failure after ⟨isError, continues, includes⟩
      exact ⟨isError, Or.inl ⟨continues.advances.phase_eq.trans active, includes.apart⟩⟩
  cases call with
  | insert key value =>
      by_cases short : key.length ≤ maxKeySize
      · apply Ends.mono (Transaction.insert_ends maintains active bounded roomy short value.2)
        · rintro _ after ⟨_, found, encoded, middle, later, ⟨reached, search, _⟩, placed⟩
          intro target page untouched fetched
          refine placed.advances.kept target page (fun climbs => untouched ?_) fetched
          exact ⟨found, reached, search, climbs⟩
        · rintro failure after ⟨⟨cause, rfl⟩, middle, _, givenUp, _⟩
          exact ⟨⟨_, rfl⟩, Or.inr givenUp.aborted.ended⟩
      · change Ends (Transaction.insert key value.val holding) _ _
        rw [Transaction.insert_eq_of_long active (Nat.lt_of_not_le short) value.val]
        exact ⟨⟨_, rfl⟩, Or.inl ⟨active, fun _ _ _ => id⟩⟩
  | get? key => exact other (by simp)
  | contains key => exact other (by simp)
  | erase key => exact other (by simp)
  | shadow index => exact other (by simp)

/-- A transaction that is undone overwrites the pages that it has copied. -/
theorem Transaction.Aborted.apart {base : List Page} {before after : Holding Transaction σ}
    (aborted : Aborted base before after) :
    IncludesApart (before.held.shadows.covers · = true) before.session.pages after.session.pages :=
  fun target page uncovered fetched =>
    aborted.uncovered target page fetched (Bool.eq_false_iff.mpr uncovered)

/-- An action that succeeds overwrites no other pages. -/
theorem Sound.perform_overwrites {account : Account} {client : Client}
    (sound : Sound index limit count account client session) (bounded : limit ≤ 255)
    (action : Action) :
    Ends (action.perform index client session)
      (fun _ after => IncludesApart (action.Overwrites index client session after.pages)
        session.pages after.pages)
      (fun _ _ => True) := by
  have stays : Ends ((pure client : TreeM σ Client) session)
      (fun _ after => IncludesApart (action.Overwrites index client session after.pages)
        session.pages after.pages) (fun _ _ => True) :=
    fun _ _ _ => id
  have apart : ∀ {touched : PageIndex → Prop} {after : Session σ}, session.Still after →
      IncludesApart touched session.pages after.pages :=
    fun still => (includes_of_longer still.longer).apart
  -- An action that does not fit what the client has does nothing.
  cases sound with
  | unopened creatable calm =>
      cases action with
      | opening config =>
          apply Ends.bind (Ends.mono (Tree.openOrCreate_ends config creatable) (fun _ _ => id)
            fun _ _ _ => trivial)
          rintro tree after ⟨fresh, rfl, _⟩
          exact fresh.others
      | _ => exact stays
  | @resting contents tree session rests =>
      rcases rests with ⟨⟨outline, keeps⟩, rfl, _⟩
      cases action with
      | opening config =>
          apply Ends.bind (Ends.mono (keeps.openOrCreate_consults config session rfl)
            (fun _ _ => And.right) fun _ _ _ => trivial)
          exact fun _ after still => apart still
      | start =>
          apply Ends.bind (Ends.mono (Transaction.start_ends tree session)
            (fun _ _ started => started.2.1) fun _ _ _ => trivial)
          exact fun _ after still => apart still
      | _ => exact stays
  | @changing before now transaction session changes =>
      rcases changes.maintains with ⟨base, outline, earlier, maintains, _⟩
      cases action with
      | call call =>
          apply Action.call_ends
          apply Transaction.attempt_ends
          apply (call.perform_overwrites maintains changes.active bounded changes.roomy).mono
          · exact fun _ _ => id
          · rintro failure after ⟨isError, goesOn | ended⟩
            · exact ⟨isError, Or.inl goesOn⟩
            · exact ⟨isError, Or.inr ⟨ended, trivial⟩⟩
      | commit =>
          apply Client.finish_ends
          apply (Transaction.commit_ends maintains changes.active).mono
          · exact fun _ after committed => committed.others
          · exact fun _ _ _ => trivial
      | rollback =>
          apply Client.finish_ends
          apply (Transaction.rollback_ends maintains.undoable changes.active).mono
          · exact fun _ after aborted => aborted.apart
          · exact fun _ _ _ => trivial
      | drop =>
          apply Client.finish_ends
          apply (Transaction.drop_ends maintains.undoable changes.active).mono
          · exact fun _ after aborted => aborted.apart
          · exact fun _ _ _ => trivial
      | _ => exact stays

end PagedMap
