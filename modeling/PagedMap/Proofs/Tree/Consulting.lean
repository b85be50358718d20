import PagedMap.Tree.Reading
import PagedMap.Proofs.Page.Views
import PagedMap.Proofs.Pager.Atomic

/-!
# Computations that only consult pages

Looking something up in a tree reads pages and changes none. What such a computation finds depends
on the pages alone, and it fails only if the pager does, which a calm one does not.
-/

namespace PagedMap

open PageList (fetch)

variable {σ α β : Type} [Pager σ] [AtomicPager σ]

namespace Session

/-- The pages that the device keeps. -/
def pages (session : Session σ) : List Page := AtomicPager.pages session.device

/-- The device will not fail on its own. -/
def Calm (session : Session σ) : Prop := AtomicPager.Calm session.device

/-- No page was changed between two states of a session. -/
structure Still (before after : Session σ) : Prop where
  pages_eq : after.pages = before.pages
  calm : before.Calm → after.Calm

/-- The pager failed without effect, which it does not do if it is calm. -/
structure Denied (before : Session σ) (failure : Failure TreeError) (after : Session σ) : Prop where
  byPager : ∃ cause, failure = .error (.pager cause)
  still : before.Still after
  stormy : ¬ before.Calm

namespace Still

variable {before middle after : Session σ}

theorem refl (session : Session σ) : session.Still session :=
  ⟨rfl, id⟩

theorem longer (still : before.Still after) : before.pages <+: after.pages :=
  still.pages_eq ▸ List.prefix_refl _

theorem trans (first : before.Still middle) (second : middle.Still after) :
    before.Still after :=
  ⟨second.pages_eq.trans first.pages_eq, fun calm => second.calm (first.calm calm)⟩

theorem denied {failure : Failure TreeError} (first : before.Still middle)
    (fails : middle.Denied failure after) : before.Denied failure after :=
  ⟨fails.byPager, first.trans fails.still, fun calm => fails.stormy (first.calm calm)⟩

end Still

end Session

open Session (Still Denied)

/-- On a session with these pages, the computation finds something and changes nothing. -/
def Consults (pages : List Page) (action : TreeM σ α) (found : α → Prop) : Prop :=
  ∀ session : Session σ, session.pages = pages →
    Ends (action session) (fun value after => found value ∧ session.Still after) session.Denied

namespace Consults

variable {pages : List Page} {page : Page} {index : PageIndex} {action : TreeM σ α}
  {found : α → Prop}

theorem mono {weaker : α → Prop} (consults : Consults pages action found)
    (implies : ∀ value, found value → weaker value) : Consults pages action weaker := by
  intro session pages_eq
  apply Ends.mono (consults session pages_eq)
  · rintro value after ⟨holds, still⟩
    exact ⟨implies value holds, still⟩
  · intro failure after denied
    exact denied

theorem pure {value : α} (holds : found value) :
    Consults pages (Pure.pure value : TreeM σ α) found := by
  intro session _
  exact ⟨holds, Still.refl session⟩

/-- Consulting the pages twice is consulting them, since the first time leaves them as they are. -/
theorem bind {next : α → TreeM σ β} {last : β → Prop} (first : Consults pages action found)
    (continues : ∀ value, found value → Consults pages (next value) last) :
    Consults pages (action >>= next) last := by
  intro session pages_eq
  have before := first session pages_eq
  apply Ends.bind (Ends.mono before (fun _ _ => id) fun _ _ => id)
  rintro value middle ⟨holds, still⟩
  apply Ends.mono (continues value holds middle (still.pages_eq.trans pages_eq))
  · rintro result after ⟨result_holds, later⟩
    exact ⟨result_holds, still.trans later⟩
  · intro failure after denied
    exact still.denied denied

theorem lift_bind {outcome : Except Fault α} {value : α} {next : α → TreeM σ β} {last : β → Prop}
    (known : outcome = .ok value) (continues : Consults pages (next value) last) :
    Consults pages (liftM outcome >>= next) last := by
  intro session pages_eq
  rw [Ends.lift_bind known]
  exact continues session pages_eq

/-- What is held while the pages are consulted stays the same. -/
theorem within_ends {τ : Type} (consults : Consults pages action found) (holding : Holding τ σ)
    (pages_eq : holding.session.pages = pages) :
    Ends (HoldingM.within action holding)
      (fun value after => found value ∧ after.held = holding.held ∧
        holding.session.Still after.session)
      (fun failure after => after.held = holding.held ∧
        holding.session.Denied failure after.session) := by
  apply HoldingM.within_ends
  apply Ends.mono (consults holding.session pages_eq)
  · rintro value after ⟨holds, still⟩
    exact ⟨holds, rfl, still⟩
  · intro failure after denied
    exact ⟨rfl, denied⟩

/-! ## Calls of the pager -/

/-- A computation that calls the pager once consults the pages, if the call keeps them and fails on
no calm pager. -/
theorem call {operation : EStateM PagerError σ α}
    (ends : ∀ state : σ, AtomicPager.pages state = pages →
      Ends (operation state)
        (fun value after => found value ∧ AtomicPager.pages after = AtomicPager.pages state ∧
          (AtomicPager.Calm state → AtomicPager.Calm after))
        (fun _ after => AtomicPager.pages after = AtomicPager.pages state ∧
          ¬ AtomicPager.Calm state)) :
    Consults pages (TreeM.call operation) found := by
  intro session pages_eq
  apply SessionM.relabel_ends
  apply SessionM.onDevice_ends
  apply Ends.mono (ends session.device pages_eq)
  · rintro value after ⟨holds, unchanged, calm⟩
    exact ⟨holds, unchanged, calm⟩
  · rintro error after ⟨unchanged, stormy⟩
    exact ⟨⟨error, rfl⟩, ⟨unchanged, fun calm => absurd calm stormy⟩, stormy⟩

theorem readPage (fetched : fetch pages index = some page) :
    Consults pages (TreeM.readPage index : TreeM σ Page) (· = page) := by
  apply call
  intro state pages_eq
  exact AtomicPager.readPage_ends (by rw [pages_eq]; exact fetched)

theorem pageCount : Consults pages (TreeM.pageCount : TreeM σ Nat) (· = pages.length) := by
  apply call
  intro state pages_eq
  rw [← pages_eq]
  exact AtomicPager.pageCount_ends state

theorem readView {view : View} (fetched : fetch pages index = some page)
    (views : page.view = .ok view) :
    Consults pages (TreeM.readView index : TreeM σ View) (· = view) := by
  apply bind (readPage fetched)
  rintro _ rfl
  rw [views]
  exact pure rfl

theorem readLeaf {leaf : Leaf} (fetched : fetch pages index = some leaf.toPage) :
    Consults pages (TreeM.readLeaf index : TreeM σ Leaf) (· = leaf) := by
  apply bind (readView fetched leaf.view_toPage)
  rintro _ rfl
  exact pure rfl

theorem report {found : Unit → Prop} (event : Event) (holds : found ()) :
    Consults pages (SessionM.report event : TreeM σ Unit) found := by
  intro session _
  exact ⟨holds, ⟨rfl, id⟩⟩

end Consults

/-- Whatever page is asked for, what is read is that page. -/
theorem TreeM.readPage_any (index : PageIndex) (session : Session σ) :
    Ends (TreeM.readPage index session)
      (fun page after => fetch session.pages index = some page ∧ session.Still after)
      (fun failure after => (∃ cause, failure = .error (.pager cause)) ∧ session.Still after) := by
  apply SessionM.relabel_ends
  apply SessionM.onDevice_ends
  apply Ends.mono (AtomicPager.readPage_any index session.device)
  · rintro page after ⟨fetched, unchanged, calm⟩
    exact ⟨fetched, unchanged, calm⟩
  · rintro error after ⟨unchanged, calm⟩
    exact ⟨⟨error, rfl⟩, unchanged, calm⟩

end PagedMap
