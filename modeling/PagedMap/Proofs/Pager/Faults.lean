import PagedMap.Pager.Faulty
import PagedMap.Proofs.Pager.Atomic

/-!
# Pagers that fail on purpose keep their pages

A call that is made to fail does not reach the inner pager, so a pager that fails on purpose keeps a
list of pages whenever the inner one does. It is calm if no failure is to come.
-/

namespace PagedMap.Faulty

open Pager (onInner onInner_ends)

variable {σ α : Type} [Pager σ] [AtomicPager σ]

/-- The pages of the inner pager. -/
def pages (pager : Faulty σ) : List Page := AtomicPager.pages pager.inner

/-- No failure is to come, neither from the inner pager nor on purpose. -/
structure Calm (pager : Faulty σ) : Prop where
  reads : pager.rates.read.isNever = true
  writes : pager.rates.write.isNever = true
  syncs : pager.rates.sync.isNever = true
  announced : pager.writesLeft = none
  inner : AtomicPager.Calm pager.inner

/-- What was counted and drawn does not concern the pages. -/
structure Aside (before after : Faulty σ) : Prop where
  inner_eq : after.inner = before.inner
  calm : before.Calm → after.Calm

/-- Whether a call fails is decided aside; with no failure to come it does not. -/
def Decides (draw : EStateM PagerError (Faulty σ) Bool) : Prop :=
  ∀ pager, Ends (draw pager)
    (fun fails after => Aside pager after ∧ (pager.Calm → fails = false)) (fun _ _ => False)

theorem draw_ends (rate : Rate) (pager : Faulty σ) :
    Ends (draw rate pager)
      (fun fails after => Aside pager after ∧ (rate.isNever = true → fails = false))
      (fun _ _ => False) := by
  simp only [draw]
  split
  next => exact ⟨⟨rfl, id⟩, fun _ => rfl⟩
  next sometimes =>
    split
    next => exact ⟨⟨rfl, id⟩, fun never => absurd never sometimes⟩
    next =>
      refine ⟨⟨rfl, ?_⟩, fun never => absurd never sometimes⟩
      intro calm
      exact ⟨calm.reads, calm.writes, calm.syncs, calm.announced, calm.inner⟩

theorem read_decides : Decides (do draw (← get).rates.read : EStateM _ (Faulty σ) Bool) := by
  intro pager
  apply Ends.mono (draw_ends pager.rates.read pager)
  · rintro fails after ⟨aside, never⟩
    exact ⟨aside, fun calm => never calm.reads⟩
  · exact fun _ _ => id

theorem sync_decides : Decides (do draw (← get).rates.sync : EStateM _ (Faulty σ) Bool) := by
  intro pager
  apply Ends.mono (draw_ends pager.rates.sync pager)
  · rintro fails after ⟨aside, never⟩
    exact ⟨aside, fun calm => never calm.syncs⟩
  · exact fun _ _ => id

omit [Pager σ] [AtomicPager σ] in
/-- An announced failure comes when no more writes are to pass. -/
theorem drawWrite_eq (pager : Faulty σ) : drawWrite pager =
    match pager.writesLeft with
    | some 0 => .ok true { pager with writesLeft := none }
    | some (passing + 1) => .ok false { pager with writesLeft := some passing }
    | none => draw pager.rates.write pager := by
  rcases pager with ⟨inner, rates, _ | _ | passing, tally, generator⟩ <;> rfl

/-- Whether a write fails is decided without a look at the pages. -/
theorem write_decides : Decides (drawWrite : EStateM _ (Faulty σ) Bool) := by
  intro pager
  rw [drawWrite_eq]
  split
  next announced =>
    refine ⟨⟨rfl, ?_⟩, ?_⟩
    · intro calm
      exact ⟨calm.reads, calm.writes, calm.syncs, rfl, calm.inner⟩
    · intro calm
      rw [calm.announced] at announced
      contradiction
  next passing announced =>
    have stormy : ¬ pager.Calm := by
      intro calm
      rw [calm.announced] at announced
      contradiction
    exact ⟨⟨rfl, fun calm => absurd calm stormy⟩, fun calm => absurd calm stormy⟩
  next =>
    apply Ends.mono (draw_ends pager.rates.write pager)
    · rintro fails after ⟨aside, never⟩
      exact ⟨aside, fun calm => never calm.writes⟩
    · exact fun _ _ => id

section

variable {operation : EStateM PagerError σ α} {drawn : EStateM PagerError (Faulty σ) Bool}
  {pager : Faulty σ} {post : α → Faulty σ → Prop} {broken : PagerError → Faulty σ → Prop}

theorem Aside.trans {before middle after : Faulty σ} (first : Aside before middle)
    (second : Aside middle after) : Aside before after :=
  ⟨second.inner_eq.trans first.inner_eq, fun calm => second.calm (first.calm calm)⟩

theorem count_ends (change : Tally → Tally) (pager : Faulty σ) :
    Ends (count change pager) (fun _ after => Aside pager after) (fun _ _ => False) := by
  refine ⟨rfl, ?_⟩
  intro calm
  exact ⟨calm.reads, calm.writes, calm.syncs, calm.announced, calm.inner⟩

/-- A call that may fail comes either to nothing or to what the inner pager makes of it, with the
counts changed at most. -/
theorem perhaps_ends {called failed : Tally → Tally} {error : PagerError}
    (decides : Decides drawn)
    (fails : ∀ after, Aside pager after → ¬ pager.Calm → broken error after)
    (passes : ∀ after, Aside pager after → Ends (onInner operation after) post broken) :
    Ends ((do
      count called
      if ← drawn then
        count failed
        throw error
      onInner operation : EStateM PagerError (Faulty σ) α) pager) post broken := by
  apply Ends.bind (Ends.mono (count_ends called pager) (fun _ _ => id) fun _ _ => False.elim)
  rintro _ counted aside
  apply Ends.bind (Ends.mono (decides counted) (fun _ _ => id) fun _ _ => False.elim)
  rintro (_ | _) drawn ⟨asideDrawn, never⟩
  · exact passes drawn (aside.trans asideDrawn)
  · have stormy : ¬ pager.Calm := by
      intro calm
      cases never (aside.calm calm)
    apply Ends.bind (Ends.mono (count_ends failed drawn) (fun _ _ => id) fun _ _ => False.elim)
    rintro _ after asideAfter
    exact fails after ((aside.trans asideDrawn).trans asideAfter) stormy

/-- A call that is passed on does to the pages what it does on the inner pager, whatever was counted
or drawn aside. -/
theorem onInner_tracks {model : EStateM PagerError Memory α} {after : Faulty σ}
    (aside : Aside pager after)
    (tracks : Tracks AtomicPager.pages AtomicPager.Calm operation model pager.inner) :
    Ends (onInner operation after)
      (fun value last => model ⟨pager.pages⟩ = .ok value ⟨last.pages⟩ ∧
        (pager.Calm → last.Calm))
      (fun error last => last.pages = pager.pages ∧ (pager.Calm → last.Calm ∧
        model ⟨pager.pages⟩ = .error error ⟨pager.pages⟩)) := by
  apply onInner_ends
  change Ends (operation after.inner) _ _
  rw [aside.inner_eq]
  apply Ends.mono tracks
  · rintro value inner ⟨done, calm⟩
    exact ⟨done, fun before => { aside.calm before with inner := calm before.inner }⟩
  · rintro error inner ⟨unchanged, failed⟩
    refine ⟨unchanged, fun before => ⟨?_, (failed before.inner).2⟩⟩
    exact { aside.calm before with inner := (failed before.inner).1 }

theorem perhaps_tracks {model : EStateM PagerError Memory α} {called failed : Tally → Tally}
    {error : PagerError} (decides : Decides drawn)
    (tracks : Tracks AtomicPager.pages AtomicPager.Calm operation model pager.inner) :
    Tracks pages Calm (do
      count called
      if ← drawn then
        count failed
        throw error
      onInner operation : EStateM PagerError (Faulty σ) α) model pager := by
  apply perhaps_ends decides
  · intro after aside stormy
    exact ⟨congrArg AtomicPager.pages aside.inner_eq, fun calm => absurd calm stormy⟩
  · intro after aside
    exact onInner_tracks aside tracks

end

instance : AtomicPager (Faulty σ) where
  pages := pages
  Calm := Calm
  readPages_tracks start amount pager :=
    perhaps_tracks read_decides (AtomicPager.readPages_tracks start amount pager.inner)
  writePages_tracks written index pager :=
    perhaps_tracks write_decides (AtomicPager.writePages_tracks written index pager.inner)
  appendPages_tracks written pager room :=
    perhaps_tracks write_decides (AtomicPager.appendPages_tracks written pager.inner room)
  appendPages_full written pager full := by
    apply perhaps_ends write_decides
    · intro after aside _
      refine ⟨?_, aside.calm⟩
      change AtomicPager.pages pager.inner <+: AtomicPager.pages after.inner
      exact aside.inner_eq ▸ List.prefix_refl _
    · intro after aside
      apply onInner_ends
      change Ends (Pager.writePages written none after.inner) _ _
      rw [aside.inner_eq]
      apply Ends.mono (AtomicPager.appendPages_full written pager.inner full) fun _ _ => id
      rintro error inner ⟨longer, calm⟩
      exact ⟨longer, fun before => { aside.calm before with inner := calm before.inner }⟩
  sync_tracks pager := perhaps_tracks sync_decides (AtomicPager.sync_tracks pager.inner)
  pageCount_tracks pager :=
    onInner_tracks ⟨rfl, id⟩ (AtomicPager.pageCount_tracks pager.inner)

end PagedMap.Faulty
