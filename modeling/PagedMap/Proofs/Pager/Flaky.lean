import PagedMap.Proofs.Pager.Atomic

/-!
# Pagers that fail now and then

A pager around another one, with a script that says which of the coming calls fail. A call that is
to fail does not reach the inner pager. When the script is over, so are the failures, and all calls
are passed on. So whatever pattern of failures a computation is to get over, there is a script for
it.
-/

namespace PagedMap

/-- A pager of which some of the coming calls fail. -/
structure Flaky (σ : Type) where
  inner : σ
  /-- For each of the coming calls, the next one first, whether it fails. -/
  script : List Bool

namespace Flaky

variable {σ α : Type}

instance : Encloses (Flaky σ) σ where
  inner := inner
  withInner pager inner := { pager with inner }

/-- A call is passed on unless the script has it fail. -/
def follow (operation : EStateM PagerError σ α) : EStateM PagerError (Flaky σ) α := fun pager =>
  match pager.script with
  | [] => Pager.onInner operation pager
  | false :: script => Pager.onInner operation { pager with script }
  | true :: script => .error (.injectedFault "interrupted") { pager with script }

instance [Pager σ] : Pager (Flaky σ) where
  readPages start amount := follow (Pager.readPages start amount)
  writePages pages start := follow (Pager.writePages pages start)
  sync := follow Pager.sync
  pageCount := follow Pager.pageCount

variable [Pager σ] [AtomicPager σ]

/-- The pages of the inner pager. -/
def pages (pager : Flaky σ) : List Page := AtomicPager.pages pager.inner

/-- The script has no failures left, and the inner pager makes none of its own. -/
structure Calm (pager : Flaky σ) : Prop where
  passing : true ∉ pager.script
  inner : AtomicPager.Calm pager.inner

/-- What a call comes to when it is to fail, and what it comes to on the inner pager, are all that
it can come to. The script goes on in both cases. -/
theorem follow_ends {operation : EStateM PagerError σ α} {pager : Flaky σ}
    {post : α → Flaky σ → Prop} {broken : PagerError → Flaky σ → Prop}
    (fails : ∀ error script, ¬ pager.Calm → broken error { pager with script })
    (passes : ∀ script, (pager.Calm → true ∉ script) →
      Ends (operation pager.inner) (fun value inner => post value ⟨inner, script⟩)
        (fun error inner => broken error ⟨inner, script⟩)) :
    Ends (follow operation pager) post broken := by
  rcases pager with ⟨inner, script⟩
  rcases script with _ | ⟨_ | _, script⟩
  · exact Pager.onInner_ends (passes [] fun _ => List.not_mem_nil)
  · exact Pager.onInner_ends (passes script fun calm inLater =>
      calm.passing (List.mem_cons_of_mem _ inLater))
  · exact fails _ script fun calm => calm.passing List.mem_cons_self

theorem follow_tracks {operation : EStateM PagerError σ α} {model : EStateM PagerError Memory α}
    {pager : Flaky σ}
    (tracks : Tracks AtomicPager.pages AtomicPager.Calm operation model pager.inner) :
    Tracks pages Calm (follow operation) model pager := by
  apply follow_ends
  · exact fun error script stormy => ⟨rfl, fun calm => absurd calm stormy⟩
  · intro script passing
    apply Ends.mono tracks
    · rintro value inner ⟨done, calm⟩
      exact ⟨done, fun before => ⟨passing before, calm before.inner⟩⟩
    · rintro error inner ⟨unchanged, failed⟩
      exact ⟨unchanged, fun before =>
        ⟨⟨passing before, (failed before.inner).1⟩, (failed before.inner).2⟩⟩

/-- A pager that fails now and then keeps its pages, and is calm once the script is over. -/
instance : AtomicPager (Flaky σ) where
  pages := pages
  Calm := Calm
  readPages_tracks start amount pager :=
    follow_tracks (AtomicPager.readPages_tracks start amount pager.inner)
  writePages_tracks written index pager :=
    follow_tracks (AtomicPager.writePages_tracks written index pager.inner)
  appendPages_tracks written pager room :=
    follow_tracks (AtomicPager.appendPages_tracks written pager.inner room)
  appendPages_full written pager full := by
    apply follow_ends
    · exact fun error script stormy => ⟨List.prefix_refl _, fun calm => absurd calm stormy⟩
    · intro script passing
      apply Ends.mono (AtomicPager.appendPages_full written pager.inner full) fun _ _ => id
      rintro error inner ⟨longer, calm⟩
      exact ⟨longer, fun before => ⟨passing before, calm before.inner⟩⟩
  sync_tracks pager := follow_tracks (AtomicPager.sync_tracks pager.inner)
  pageCount_tracks pager := follow_tracks (AtomicPager.pageCount_tracks pager.inner)

end Flaky

/-- A session that goes on with some of the coming calls failing. -/
def Session.interrupted {σ : Type} (session : Session σ) (script : List Bool) :
    Session (Flaky σ) :=
  ⟨⟨session.device, script⟩, session.log⟩

end PagedMap
