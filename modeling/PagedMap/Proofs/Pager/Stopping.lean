import PagedMap.Proofs.Pager.Atomic
import PagedMap.Proofs.Tree.Consulting

/-!
# Pagers that stop

A pager around another one that serves some calls and refuses all later ones. A computation that is
refused a call leaves the state in which it made the call. So the points between the calls of a
computation are what it leaves behind, with one number of served calls after the other.
-/

namespace PagedMap

/-- A pager that serves as many calls as are left. -/
structure Stopping (σ : Type) where
  inner : σ
  left : Nat

namespace Stopping

variable {σ α : Type}

instance : Encloses (Stopping σ) σ where
  inner := inner
  withInner pager inner := { pager with inner }

/-- A call is served if calls are left, and otherwise refused. -/
def serve (operation : EStateM PagerError σ α) : EStateM PagerError (Stopping σ) α := fun pager =>
  match pager.left with
  | 0 => .error (.injectedFault "stopped") pager
  | left + 1 => Pager.onInner operation { pager with left }

instance [Pager σ] : Pager (Stopping σ) where
  readPages start amount := serve (Pager.readPages start amount)
  writePages pages start := serve (Pager.writePages pages start)
  sync := serve Pager.sync
  pageCount := serve Pager.pageCount

variable [Pager σ] [AtomicPager σ]

/-- The pages of the inner pager. -/
def pages (pager : Stopping σ) : List Page := AtomicPager.pages pager.inner

theorem serve_tracks {operation : EStateM PagerError σ α} {model : EStateM PagerError Memory α}
    {pager : Stopping σ}
    (tracks : Tracks AtomicPager.pages AtomicPager.Calm operation model pager.inner) :
    Tracks pages (fun _ => False) (serve operation) model pager := by
  simp only [Tracks, serve] at tracks ⊢
  cases pager.left with
  | zero => exact ⟨rfl, False.elim⟩
  | succ left =>
      apply Pager.onInner_ends
      apply Ends.mono tracks
      · exact fun _ _ done => ⟨done.1, False.elim⟩
      · exact fun _ _ failed => ⟨failed.1, False.elim⟩

/-- A pager that stops is never calm. -/
instance : AtomicPager (Stopping σ) where
  pages := pages
  Calm _ := False
  readPages_tracks start amount pager :=
    serve_tracks (AtomicPager.readPages_tracks start amount pager.inner)
  writePages_tracks written index pager :=
    serve_tracks (AtomicPager.writePages_tracks written index pager.inner)
  appendPages_tracks written pager room :=
    serve_tracks (AtomicPager.appendPages_tracks written pager.inner room)
  appendPages_full written pager full := by
    have fails := AtomicPager.appendPages_full written pager.inner full
    change Ends (serve (Pager.writePages written none) pager) _ _
    simp only [serve]
    cases pager.left with
    | zero => exact ⟨List.prefix_refl _, False.elim⟩
    | succ left =>
        apply Pager.onInner_ends
        apply Ends.mono fails
        · exact fun _ _ => False.elim
        · exact fun _ _ longer => ⟨longer.1, False.elim⟩
  sync_tracks pager := serve_tracks (AtomicPager.sync_tracks pager.inner)
  pageCount_tracks pager := serve_tracks (AtomicPager.pageCount_tracks pager.inner)

end Stopping

section Serving

variable {σ τ : Type}

/-- A session that goes on with a pager that serves some more calls. -/
def Session.serving (calls : Nat) (session : Session σ) : Session (Stopping σ) :=
  ⟨⟨session.device, calls⟩, session.log⟩

/-- What is held in a session that goes on with a pager that serves some more calls. -/
def Holding.serving (calls : Nat) (holding : Holding τ σ) : Holding τ (Stopping σ) :=
  ⟨holding.held, holding.session.serving calls⟩

/-- The point that a computation has reached after some calls of the pager, or its end. -/
def stopAfter {ε α : Type} (calls : Nat) (action : HoldingM τ (Stopping σ) ε α)
    (holding : Holding τ σ) : Holding τ (Stopping σ) :=
  lastState (action (holding.serving calls))

end Serving

end PagedMap
