import PagedMap.Proofs.Pager.PageLists

/-!
# Pagers that keep a list of pages

A pager is atomic if it keeps a list of pages, and if each call on it either does what the same call
does to pages in memory, or fails and leaves the list alone. In a calm state a call fails only where
it fails in memory too, and the state stays calm. All that is proved about trees is proved for
atomic pagers: with a calm one nothing fails, and with any other one everything may.
-/

namespace PagedMap

open PageList (fetch store nextIndex)

variable {σ α β : Type}

/-- In a state, an operation does what another one does to pages in memory, or fails without
effect. -/
def Tracks (pages : σ → List Page) (Calm : σ → Prop) (operation : EStateM PagerError σ α)
    (model : EStateM PagerError Memory α) (state : σ) : Prop :=
  Ends (operation state)
    (fun value after => model ⟨pages state⟩ = .ok value ⟨pages after⟩ ∧ (Calm state → Calm after))
    (fun error after => pages after = pages state ∧
      (Calm state → Calm after ∧ model ⟨pages state⟩ = .error error ⟨pages state⟩))

/-- A pager that keeps a list of pages. -/
class AtomicPager (σ : Type) [Pager σ] where
  /-- The pages kept. -/
  pages : σ → List Page
  /-- No call will fail that would not fail in memory. -/
  Calm : σ → Prop
  readPages_tracks : ∀ start amount state,
    Tracks pages Calm (Pager.readPages start amount) (Pager.readPages start amount) state
  writePages_tracks : ∀ written index state,
    Tracks pages Calm (Pager.writePages written (some index))
      (Pager.writePages written (some index)) state
  appendPages_tracks : ∀ written state, (pages state).length < Word.signedLimit →
    Tracks pages Calm (Pager.writePages written none) (Pager.writePages written none) state
  /-- Without an index for them, pages cannot be appended, though they may have been stored. -/
  appendPages_full : ∀ written state, Word.signedLimit ≤ (pages state).length →
    Ends (Pager.writePages written none state) (fun _ _ => False)
      (fun _ after => pages state <+: pages after ∧ (Calm state → Calm after))
  sync_tracks : ∀ state, Tracks pages Calm Pager.sync Pager.sync state
  pageCount_tracks : ∀ state, Tracks pages Calm Pager.pageCount Pager.pageCount state

/-! ## Pages in memory -/

theorem tracks_self {operation : EStateM PagerError Memory α}
    {memory : Memory}
    (atomic : Ends (operation memory) (fun _ _ => True) fun _ after => after = memory) :
    Tracks Memory.pages (fun _ => True) operation operation memory := by
  simp only [Tracks]
  revert atomic
  cases operation memory with
  | ok value after => exact fun _ => ⟨rfl, id⟩
  | error error after =>
      rintro rfl
      exact ⟨rfl, fun _ => ⟨trivial, rfl⟩⟩

theorem lift_ends (outcome : Except PagerError α) (memory : Memory) :
    Ends ((liftM outcome : EStateM PagerError Memory α) memory)
      (fun _ after => after = memory) fun _ after => after = memory := by
  cases outcome <;> rfl

/-- Where pages are not put into the memory, it is as before. -/
theorem Memory.placed_ends (written : List Page) (memory : Memory) (position : Nat) :
    Ends ((do
        if position > memory.pages.length then
          throw (.outOfBounds (← PageIndex.ofPosition position) memory.pages.length)
        let first ← PageIndex.ofPosition position
        modify fun memory => { memory with pages := Memory.splice memory.pages position written }
        return first : EStateM PagerError Memory PageIndex) memory)
      (fun _ _ => True) fun _ after => after = memory := by
  dsimp only
  split
  · refine Ends.bind (lift_ends _ memory) ?_
    rintro index _ rfl
    rfl
  · refine Ends.bind (lift_ends _ memory) ?_
    rintro index _ rfl
    trivial

instance : AtomicPager Memory where
  pages := Memory.pages
  Calm _ := True
  readPages_tracks start amount memory := by
    apply tracks_self
    refine Ends.bind (lift_ends _ memory) ?_
    rintro position _ rfl
    change Ends ((if position + amount > _ then _ else _ : EStateM _ Memory _) _) _ _
    split
    · rfl
    · trivial
  writePages_tracks written index memory := by
    apply tracks_self
    have counted : Ends ((get : EStateM PagerError Memory Memory) memory)
        (fun value after => value = memory ∧ after = memory) fun _ after => after = memory :=
      ⟨rfl, rfl⟩
    refine Ends.bind counted ?_
    rintro _ _ ⟨rfl, rfl⟩
    refine Ends.bind (lift_ends _ _) ?_
    rintro position _ rfl
    exact Memory.placed_ends written _ position
  appendPages_tracks written memory _ := by
    apply tracks_self
    exact Memory.placed_ends written memory memory.pages.length
  appendPages_full written memory full := by
    rcases PageList.appendPages_full written full with ⟨error, fails⟩
    rw [fails]
    exact ⟨List.prefix_refl _, id⟩
  sync_tracks _ := tracks_self trivial
  pageCount_tracks _ := tracks_self trivial

/-! ## Pagers around another one -/

/-- An operation of the inner pager ends as it does there, with the rest of the outer pager as it
was. -/
theorem Pager.onInner_ends {τ : Type} [Encloses τ σ] {operation : EStateM PagerError σ α}
    {pager : τ} {post : α → τ → Prop} {broken : PagerError → τ → Prop}
    (ends : Ends (operation (Encloses.inner pager))
      (fun value inner => post value (Encloses.withInner pager inner))
      (fun error inner => broken error (Encloses.withInner pager inner))) :
    Ends (Pager.onInner operation pager) post broken := by
  simp only [Pager.onInner]
  revert ends
  cases operation (Encloses.inner pager) with
  | ok value inner => exact id
  | error error inner => exact id

/-! ## Operations on one page -/

namespace Tracks

variable {pages : σ → List Page} {Calm : σ → Prop} {operation : EStateM PagerError σ α}
  {model : EStateM PagerError Memory α} {state : σ} {value : α} {later : List Page}

theorem bind_pure (tracks : Tracks pages Calm operation model state) (change : α → β) :
    Tracks pages Calm (do return change (← operation)) (do return change (← model)) state := by
  simp only [Tracks] at tracks
  change Ends (EStateM.bind operation (fun value => EStateM.pure (change value)) state) _ _
  simp only [EStateM.bind]
  revert tracks
  cases operation state with
  | ok value after =>
      rintro ⟨done, calm⟩
      exact ⟨bind_eq_of_ok done _, calm⟩
  | error error after =>
      rintro ⟨unchanged, calm⟩
      exact ⟨unchanged, fun before => ⟨(calm before).1, bind_eq_of_error (calm before).2 _⟩⟩

/-- Where the operation succeeds in memory, only a pager that is not calm can fail. -/
theorem ends_of_ok (tracks : Tracks pages Calm operation model state)
    (done : model ⟨pages state⟩ = .ok value ⟨later⟩) :
    Ends (operation state)
      (fun given after => given = value ∧ pages after = later ∧ (Calm state → Calm after))
      (fun _ after => pages after = pages state ∧ ¬ Calm state) := by
  refine Ends.mono tracks ?_ ?_
  · rintro given after ⟨also, calm⟩
    rw [done] at also
    injection also with same samePages
    injection samePages with samePages
    exact ⟨same.symm, samePages.symm, calm⟩
  · rintro error after ⟨unchanged, failed⟩
    refine ⟨unchanged, fun calm => ?_⟩
    rw [done] at failed
    cases (failed calm).2

theorem ends_of_error {error : PagerError} (tracks : Tracks pages Calm operation model state)
    (fails : model ⟨pages state⟩ = .error error ⟨pages state⟩) :
    Ends (operation state) (fun _ _ => False)
      (fun _ after => pages after = pages state ∧ (Calm state → Calm after)) := by
  refine Ends.mono tracks ?_ ?_
  · rintro value after ⟨done, _⟩
    rw [fails] at done
    cases done
  · rintro error after ⟨unchanged, failed⟩
    exact ⟨unchanged, fun calm => (failed calm).1⟩

/-- A calm pager fails only where the memory with the same pages does. -/
theorem error_of_calm {error : PagerError} (tracks : Tracks pages Calm operation model state)
    (calm : Calm state) (fails : model ⟨pages state⟩ = .error error ⟨pages state⟩) :
    ∃ after, operation state = .error error after := by
  have ends := (tracks.ends_of_error fails).and (tracks.and (Ends.self operation state))
  rcases ends.exists_error (fun _ _ both => both.1) with ⟨given, after, failed, _, tracked, _⟩
  have also := (tracked.2 calm).2
  rw [fails] at also
  injection also with same
  exact ⟨after, same ▸ failed⟩

end Tracks

namespace AtomicPager

variable [Pager σ] [AtomicPager σ] {state : σ} {page old : Page} {index : PageIndex}

theorem readPage_tracks (index : PageIndex) (state : σ) :
    Tracks pages Calm (Pager.readPage index) (Pager.readPage index) state :=
  (readPages_tracks index 1 state).bind_pure _

/-- A page that is there is given, unless the pager fails. -/
theorem readPage_ends (fetched : fetch (pages state) index = some page) :
    Ends (Pager.readPage index state)
      (fun given after => given = page ∧ pages after = pages state ∧ (Calm state → Calm after))
      (fun _ after => pages after = pages state ∧ ¬ Calm state) :=
  (readPage_tracks index state).ends_of_ok (PageList.readPage_eq fetched)

/-- Whatever index is read, no page changes, and a page that is given is the one there. -/
theorem readPage_any (index : PageIndex) (state : σ) :
    Ends (Pager.readPage index state)
      (fun given after => fetch (pages state) index = some given ∧ pages after = pages state ∧
        (Calm state → Calm after))
      (fun _ after => pages after = pages state ∧ (Calm state → Calm after)) := by
  cases fetched : fetch (pages state) index with
  | some page =>
      refine Ends.mono (readPage_ends fetched) ?_ ?_
      · rintro given after ⟨rfl, unchanged, calm⟩
        exact ⟨rfl, unchanged, calm⟩
      · rintro error after ⟨unchanged, stormy⟩
        exact ⟨unchanged, fun calm => absurd calm stormy⟩
  | none =>
      rcases PageList.readPage_missing fetched with ⟨error, fails⟩
      exact Ends.mono ((readPage_tracks index state).ends_of_error fails)
        (fun _ _ => False.elim) fun _ _ => id

theorem writePage_tracks (page : Page) (index : PageIndex) (state : σ) :
    Tracks pages Calm (Pager.writePage page index) (Pager.writePage page index) state :=
  (writePages_tracks [page] index state).bind_pure fun _ => ()

theorem writePage_ends (fetched : fetch (pages state) index = some old) :
    Ends (Pager.writePage page index state)
      (fun _ after => pages after = store (pages state) index page ∧ (Calm state → Calm after))
      (fun _ after => pages after = pages state ∧ ¬ Calm state) :=
  Ends.mono ((writePage_tracks page index state).ends_of_ok (PageList.writePage_eq fetched))
    (fun _ _ => And.right) fun _ _ => id

theorem writePage_end_ends (isEnd : PageIndex.position index = .ok (pages state).length) :
    Ends (Pager.writePage page index state)
      (fun _ after => pages after = pages state ++ [page] ∧ (Calm state → Calm after))
      (fun _ after => pages after = pages state ∧ ¬ Calm state) :=
  Ends.mono ((writePage_tracks page index state).ends_of_ok (PageList.writePage_end isEnd))
    (fun _ _ => And.right) fun _ _ => id

/-- Appending puts the page behind the last one. It fails on a calm pager only if there are no more
indices. -/
theorem appendPage_ends (page : Page) (state : σ) :
    Ends (Pager.appendPage page state)
      (fun index after => index = nextIndex (pages state) ∧
        (pages state).length < Word.signedLimit ∧ pages after = pages state ++ [page] ∧
        (Calm state → Calm after))
      (fun _ after => pages state <+: pages after ∧
        (Calm state → Calm after ∧ Word.signedLimit ≤ (pages state).length)) := by
  by_cases room : (pages state).length < Word.signedLimit
  · have tracks := appendPages_tracks [page] state room
    refine Ends.mono (tracks.ends_of_ok (PageList.appendPage_eq room)) ?_ ?_
    · rintro given after ⟨rfl, appended, calm⟩
      exact ⟨rfl, room, appended, calm⟩
    · rintro error after ⟨unchanged, stormy⟩
      rw [unchanged]
      exact ⟨List.prefix_refl _, fun calm => absurd calm stormy⟩
  · have full : Word.signedLimit ≤ (pages state).length := by omega
    refine Ends.mono (appendPages_full [page] state full) (fun _ _ => False.elim) ?_
    rintro error after ⟨longer, calm⟩
    exact ⟨longer, fun before => ⟨calm before, full⟩⟩

theorem sync_ends (state : σ) :
    Ends (Pager.sync state) (fun _ after => pages after = pages state ∧ (Calm state → Calm after))
      (fun _ after => pages after = pages state ∧ ¬ Calm state) := by
  have synced : Pager.sync (⟨pages state⟩ : Memory) = .ok () ⟨pages state⟩ := rfl
  exact Ends.mono ((sync_tracks state).ends_of_ok synced) (fun _ _ => And.right) fun _ _ => id

theorem pageCount_ends (state : σ) :
    Ends (Pager.pageCount state)
      (fun count after => count = (pages state).length ∧ pages after = pages state ∧
        (Calm state → Calm after))
      (fun _ after => pages after = pages state ∧ ¬ Calm state) := by
  have counted : Pager.pageCount (⟨pages state⟩ : Memory) =
      .ok (pages state).length ⟨pages state⟩ := rfl
  exact (pageCount_tracks state).ends_of_ok counted

end AtomicPager

end PagedMap
