import PagedMap.Proofs.Tree.Consulting

/-!
# Calls that write pages

Appending a page and overwriting one, as steps of a session. A step that fails changes no page. If
the pager is calm, overwriting does not fail, and appending fails only when there are no more page
indices.
-/

namespace PagedMap

open PageList (fetch store nextIndex)
open Session (Still Denied)

variable {σ : Type} [Pager σ] [AtomicPager σ] {session : Session σ} {page old : Page}
  {index : PageIndex}

namespace Session

/-- A page was not appended. -/
structure Rejected (before : Session σ) (failure : Failure TreeError) (after : Session σ) :
    Prop where
  byPager : ∃ cause, failure = .error (.pager cause)
  longer : before.pages <+: after.pages
  calm : before.Calm → after.Calm
  full : before.Calm → Word.signedLimit ≤ before.pages.length

end Session

namespace TreeM

/-- An appended page gets the index behind the last page. -/
theorem appendPage_ends (page : Page) (session : Session σ) :
    Ends (TreeM.appendPage page session)
      (fun index after => index = nextIndex session.pages ∧
        session.pages.length < Word.signedLimit ∧ after.pages = session.pages ++ [page] ∧
        (session.Calm → after.Calm))
      session.Rejected := by
  apply SessionM.relabel_ends
  apply SessionM.onDevice_ends
  apply Ends.mono (AtomicPager.appendPage_ends page session.device)
  · rintro index device ⟨index_eq, room, appended, calm⟩
    exact ⟨index_eq, room, appended, calm⟩
  · rintro error device ⟨longer, full⟩
    exact ⟨⟨error, rfl⟩, longer, fun calm => (full calm).1, fun calm => (full calm).2⟩

theorem writePage_ends (fetched : fetch session.pages index = some old) (page : Page) :
    Ends (TreeM.writePage page index session)
      (fun _ after => after.pages = store session.pages index page ∧ (session.Calm → after.Calm))
      session.Denied := by
  apply SessionM.relabel_ends
  apply SessionM.onDevice_ends
  apply Ends.mono (AtomicPager.writePage_ends fetched)
  · rintro _ device ⟨stored, calm⟩
    exact ⟨stored, calm⟩
  · rintro error device ⟨unchanged, stormy⟩
    exact ⟨⟨error, rfl⟩, ⟨unchanged, fun calm => absurd calm stormy⟩, stormy⟩

theorem writePage_end_ends (isEnd : PageIndex.position index = .ok session.pages.length)
    (page : Page) :
    Ends (TreeM.writePage page index session)
      (fun _ after => after.pages = session.pages ++ [page] ∧ (session.Calm → after.Calm))
      session.Denied := by
  apply SessionM.relabel_ends
  apply SessionM.onDevice_ends
  apply Ends.mono (AtomicPager.writePage_end_ends isEnd)
  · rintro _ device ⟨stored, calm⟩
    exact ⟨stored, calm⟩
  · rintro error device ⟨unchanged, stormy⟩
    exact ⟨⟨error, rfl⟩, ⟨unchanged, fun calm => absurd calm stormy⟩, stormy⟩

theorem sync_consults (pages : List Page) :
    Consults pages (TreeM.sync : TreeM σ Unit) fun _ => True := by
  apply Consults.call
  intro state _
  apply Ends.mono (AtomicPager.sync_ends state)
  · rintro _ after ⟨unchanged, calm⟩
    exact ⟨trivial, unchanged, calm⟩
  · intro error after fails
    exact fails

end TreeM

end PagedMap
