import PagedMap.Proofs.Pager.Atomic
import PagedMap.Proofs.Tree.Consulting

/-!
# Pagers that are watched

A pager around another one that notes the index of every page that it is asked to read, whether or
not the page is then given. A computation that changes no page leaves behind, besides the pages as
they were, the indices of those that it looked at.
-/

namespace PagedMap

open PageList (fetch)

/-- A pager with the indices of the pages that were asked for, the earliest first. -/
structure Watching (σ : Type) where
  inner : σ
  reads : List PageIndex := []

namespace Watching

open Pager (onInner onInner_ends)

variable {σ : Type}

def note (indices : List PageIndex) : EStateM PagerError (Watching σ) Unit :=
  modify fun pager => { pager with reads := pager.reads ++ indices }

instance : Encloses (Watching σ) σ where
  inner := inner
  withInner pager inner := { pager with inner }

instance [Pager σ] : Pager (Watching σ) where
  readPages start amount := do
    note ((List.range amount).map fun offset => start + Int64.ofNat offset)
    onInner (Pager.readPages start amount)
  writePages pages start := onInner (Pager.writePages pages start)
  sync := onInner Pager.sync
  pageCount := onInner Pager.pageCount

variable [Pager σ] [AtomicPager σ]

/-- The pages of the inner pager. -/
def pages (pager : Watching σ) : List Page := AtomicPager.pages pager.inner

/-- Watching a pager makes no call fail. -/
def Calm (pager : Watching σ) : Prop := AtomicPager.Calm pager.inner

instance : AtomicPager (Watching σ) where
  pages := pages
  Calm := Calm
  readPages_tracks start amount pager :=
    onInner_ends (AtomicPager.readPages_tracks start amount pager.inner)
  writePages_tracks written index pager :=
    onInner_ends (AtomicPager.writePages_tracks written index pager.inner)
  appendPages_tracks written pager room :=
    onInner_ends (AtomicPager.appendPages_tracks written pager.inner room)
  appendPages_full written pager full :=
    onInner_ends (AtomicPager.appendPages_full written pager.inner full)
  sync_tracks pager := onInner_ends (AtomicPager.sync_tracks pager.inner)
  pageCount_tracks pager := onInner_ends (AtomicPager.pageCount_tracks pager.inner)

end Watching

/-! ## What a computation looked at -/

variable {σ α β : Type}

/-- A session of which the reads are noted from here on. -/
def Session.watched (session : Session σ) : Session (Watching σ) :=
  ⟨⟨session.device, []⟩, session.log⟩

variable [Pager σ] [AtomicPager σ]

/-- No page was changed, and those with these indices were asked for one after the other. -/
structure Looks (before : Session (Watching σ)) (seen : List PageIndex)
    (after : Session (Watching σ)) : Prop where
  still : before.Still after
  reads_eq : after.device.reads = before.device.reads ++ seen

namespace Looks

variable {before middle after session : Session (Watching σ)} {seen more : List PageIndex}

theorem refl (session : Session (Watching σ)) : Looks session [] session :=
  ⟨Session.Still.refl session, (List.append_nil _).symm⟩

theorem trans (first : Looks before seen middle) (second : Looks middle more after) :
    Looks before (seen ++ more) after := by
  refine ⟨first.still.trans second.still, ?_⟩
  rw [second.reads_eq, first.reads_eq, List.append_assoc]

/-- From a session that begins to be watched, all reads are noted. -/
theorem reads_of_watched {session : Session σ} (looks : Looks session.watched seen after) :
    after.device.reads = seen :=
  looks.reads_eq

end Looks

omit [AtomicPager σ] in
/-- A read is noted, also when it fails. -/
theorem Watching.readPage_notes (index : PageIndex) (pager : Watching σ) :
    Ends (Pager.readPage index pager) (fun _ after => after.reads = pager.reads ++ [index])
      (fun _ after => after.reads = pager.reads ++ [index]) := by
  have asked : (List.range 1).map (fun offset => index + Int64.ofNat offset) = [index] := by simp
  have read : Ends (Pager.readPages index 1 pager)
      (fun _ after => after.reads = pager.reads ++ [index])
      (fun _ after => after.reads = pager.reads ++ [index]) := by
    change Ends (Pager.onInner (Pager.readPages index 1)
      ({ pager with reads := pager.reads ++ (List.range 1).map _ } : Watching σ)) _ _
    rw [asked]
    apply Pager.onInner_ends
    cases Pager.readPages index 1 pager.inner with
    | ok value inner => rfl
    | error error inner => rfl
  exact Ends.bind read fun _ _ => id

/-- Reading a page notes its index and gives the page that is there. -/
theorem readPage_looks (index : PageIndex) (session : Session (Watching σ)) :
    Ends (TreeM.readPage index session)
      (fun page after => fetch session.pages index = some page ∧ Looks session [index] after)
      (fun failure after => (∃ cause, failure = .error (.pager cause)) ∧
        Looks session [index] after) := by
  apply SessionM.relabel_ends
  apply SessionM.onDevice_ends
  apply Ends.mono ((AtomicPager.readPage_any index session.device).and
    (Watching.readPage_notes index session.device))
  · rintro page after ⟨⟨fetched, unchanged, calm⟩, reads_eq⟩
    exact ⟨fetched, ⟨unchanged, calm⟩, reads_eq⟩
  · rintro error after ⟨⟨unchanged, calm⟩, reads_eq⟩
    exact ⟨⟨error, rfl⟩, ⟨unchanged, calm⟩, reads_eq⟩

/-- Counting the pages looks at none of them. -/
theorem pageCount_looks (session : Session (Watching σ)) :
    Ends (TreeM.pageCount session)
      (fun count after => count = session.pages.length ∧ Looks session [] after)
      (fun failure after => (∃ cause, failure = .error (.pager cause)) ∧
        Looks session [] after) := by
  apply SessionM.relabel_ends
  apply SessionM.onDevice_ends
  have counted : Ends (Pager.pageCount session.device)
      (fun _ after => after.reads = session.device.reads)
      (fun _ after => after.reads = session.device.reads) := by
    apply Pager.onInner_ends
    cases Pager.pageCount session.device.inner with
    | ok value inner => rfl
    | error error inner => rfl
  apply Ends.mono ((AtomicPager.pageCount_ends session.device).and counted)
  · rintro count after ⟨⟨rfl, unchanged, calm⟩, reads_eq⟩
    exact ⟨rfl, ⟨unchanged, calm⟩, reads_eq.trans (List.append_nil _).symm⟩
  · rintro error after ⟨⟨unchanged, stormy⟩, reads_eq⟩
    exact ⟨⟨error, rfl⟩, ⟨unchanged, fun calm => absurd calm stormy⟩,
      reads_eq.trans (List.append_nil _).symm⟩

/-! ## Bounds on reading -/

/-- The computation changes no page, and asks for at most so many. -/
def AsksAtMost (most : Nat) (action : TreeM (Watching σ) α) : Prop :=
  ∀ session, ∃ seen, Looks session seen (lastState (action session)) ∧ seen.length ≤ most

namespace AsksAtMost

variable {most more : Nat} {action : TreeM (Watching σ) α}

theorem of_unread (unread : ∀ session, Looks session [] (lastState (action session))) :
    AsksAtMost 0 action :=
  fun session => ⟨[], unread session, Nat.le_refl 0⟩

theorem mono (asks : AsksAtMost most action) (more_le : most ≤ more) : AsksAtMost more action := by
  intro session
  rcases asks session with ⟨seen, looks, few⟩
  exact ⟨seen, looks, Nat.le_trans few more_le⟩

theorem pure (value : α) : AsksAtMost 0 (Pure.pure value : TreeM (Watching σ) α) :=
  of_unread Looks.refl

theorem fail (error : TreeError) : AsksAtMost 0 (SessionM.fail error : TreeM (Watching σ) α) :=
  of_unread Looks.refl

theorem lift (outcome : Except Fault α) : AsksAtMost 0 (liftM outcome : TreeM (Watching σ) α) := by
  apply of_unread
  intro session
  cases outcome with
  | ok value => exact Looks.refl session
  | error fault => exact Looks.refl session

/-- Two computations together read at most the pages that each of them may. -/
theorem bind {next : α → TreeM (Watching σ) β} (first : AsksAtMost most action)
    (continues : ∀ value, AsksAtMost more (next value)) :
    AsksAtMost (most + more) (action >>= next) := by
  intro session
  rcases first session with ⟨seen, looks, few⟩
  cases given : action session with
  | ok value middle =>
      rw [given] at looks
      rw [bind_eq_of_ok given]
      rcases continues value middle with ⟨later, looksLater, fewLater⟩
      refine ⟨seen ++ later, looks.trans looksLater, ?_⟩
      rw [List.length_append]
      omega
  | error failure middle =>
      rw [given] at looks
      rw [bind_eq_of_error given]
      exact ⟨seen, looks, by omega⟩

theorem readPage (index : PageIndex) :
    AsksAtMost 1 (TreeM.readPage index : TreeM (Watching σ) Page) := by
  intro session
  refine ⟨[index], lastState_of_ends (Ends.mono (readPage_looks index session) ?_ ?_), Nat.le_refl 1⟩
  · exact fun _ _ => And.right
  · exact fun _ _ => And.right

theorem readView (index : PageIndex) :
    AsksAtMost 1 (TreeM.readView index : TreeM (Watching σ) View) := by
  change AsksAtMost (1 + 0) (TreeM.readPage index >>= _)
  apply bind (readPage index)
  intro page
  cases page.view with
  | ok view => exact pure view
  | error unknown => exact fail _

end AsksAtMost

end PagedMap
