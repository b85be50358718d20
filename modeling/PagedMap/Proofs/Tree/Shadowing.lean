import PagedMap.Tree.Transaction
import PagedMap.Proofs.Tree.Writing

/-!
# Transactions copy what they overwrite

While a transaction is under way, every page that was there when it began is either as it was or
has a copy among the pages that the transaction appended. This is kept by all that a transaction
does to pages, and it makes undoing bring the old pages back.
-/

namespace PagedMap

open PageList (fetch store nextIndex)
open HoldingM (within)

namespace Shadows

variable {shadows : Shadows} {shadow found : Shadow} {index : PageIndex}

theorem insert_perm (shadow : Shadow) (shadows : Shadows) :
    (shadows.insert shadow).Perm (shadow :: shadows) := by
  induction shadows with
  | nil => exact List.Perm.refl _
  | cons first rest ih =>
      simp only [Shadows.insert]
      split
      · exact List.Perm.refl _
      · exact (ih.cons first).trans (List.Perm.swap shadow first rest)

@[simp]
theorem mem_insert : found ∈ shadows.insert shadow ↔ found = shadow ∨ found ∈ shadows :=
  (insert_perm shadow shadows).mem_iff.trans List.mem_cons

theorem covers_iff : shadows.covers index = true ↔ ∃ shadow ∈ shadows, shadow.page = index := by
  simp [covers]

theorem covers_insert : (shadows.insert shadow).covers index = true ↔
    shadow.page = index ∨ shadows.covers index = true := by
  simp [covers_iff]

end Shadows

/-- The pages from before a transaction can be brought back: those that it has not copied are as
they were, and of the others it has one copy each among the pages that it appended. -/
structure Undoable (base : List Page) (transaction : Transaction) (pages : List Page) : Prop where
  room : base.length < Word.signedLimit
  fresh : transaction.freshFrom = nextIndex base
  longer : base.length ≤ pages.length
  kept : ∀ index page, fetch base index = some page →
    transaction.shadows.covers index = false → fetch pages index = some page
  copied : ∀ shadow ∈ transaction.shadows,
    ∃ page, fetch base shadow.page = some page ∧ fetch pages shadow.copy = some page
  beyond : ∀ shadow ∈ transaction.shadows, fetch base shadow.copy = none
  once : (transaction.shadows.map Shadow.page).Nodup
  apart : (transaction.shadows.map Shadow.copy).Nodup

/-- A transaction can be undone as before when one more page has been copied. -/
theorem Undoable.insert {base pages : List Page} {transaction : Transaction} {page : Page}
    {index copy : PageIndex} (undoable : Undoable base transaction pages)
    (original : fetch base index = some page)
    (uncovered : transaction.shadows.covers index = false)
    (copied : fetch pages copy = some page) (beyond : fetch base copy = none)
    (isNew : ∀ shadow ∈ transaction.shadows, shadow.copy ≠ copy) :
    Undoable base
      { transaction with shadows := transaction.shadows.insert ⟨index, copy⟩ } pages := by
  have perm := Shadows.insert_perm ⟨index, copy⟩ transaction.shadows
  refine { undoable with kept := ?_, copied := ?_, beyond := ?_, once := ?_, apart := ?_ }
  · intro other otherPage fetched stillUncovered
    apply undoable.kept other otherPage fetched
    apply Bool.eq_false_iff.mpr
    intro covered
    apply Bool.eq_false_iff.mp stillUncovered
    exact Shadows.covers_insert.mpr (Or.inr covered)
  · intro shadow member
    rcases Shadows.mem_insert.mp member with rfl | earlier
    · exact ⟨page, original, copied⟩
    · exact undoable.copied shadow earlier
  · intro shadow member
    rcases Shadows.mem_insert.mp member with rfl | earlier
    · exact beyond
    · exact undoable.beyond shadow earlier
  · rw [(perm.map Shadow.page).nodup_iff]
    apply List.nodup_cons.mpr
    refine ⟨?_, undoable.once⟩
    intro member
    rcases List.mem_map.mp member with ⟨shadow, inShadows, page_eq⟩
    apply Bool.eq_false_iff.mp uncovered
    exact Shadows.covers_iff.mpr ⟨shadow, inShadows, page_eq⟩
  · rw [(perm.map Shadow.copy).nodup_iff]
    apply List.nodup_cons.mpr
    refine ⟨?_, undoable.apart⟩
    intro member
    rcases List.mem_map.mp member with ⟨shadow, inShadows, copy_eq⟩
    exact isNew shadow inShadows copy_eq

/-- Whether a transaction can be undone depends on its copies and on where its new pages begin, and
on nothing else of it. -/
theorem Undoable.of_shadows {base pages : List Page} {transaction other : Transaction}
    (undoable : Undoable base transaction pages)
    (freshFrom_eq : other.freshFrom = transaction.freshFrom)
    (shadows_eq : other.shadows = transaction.shadows) : Undoable base other pages where
  room := undoable.room
  fresh := freshFrom_eq.trans undoable.fresh
  longer := undoable.longer
  kept := by
    rw [shadows_eq]
    exact undoable.kept
  copied := by
    rw [shadows_eq]
    exact undoable.copied
  beyond := by
    rw [shadows_eq]
    exact undoable.beyond
  once := by
    rw [shadows_eq]
    exact undoable.once
  apart := by
    rw [shadows_eq]
    exact undoable.apart

theorem Undoable.grow {base pages later : List Page} {transaction : Transaction}
    (undoable : Undoable base transaction pages) (longer : pages.length ≤ later.length)
    (includes : Includes pages later) : Undoable base transaction later := by
  refine { undoable with longer := Nat.le_trans undoable.longer longer, kept := ?_, copied := ?_ }
  · intro index page fetched uncovered
    exact includes index page (undoable.kept index page fetched uncovered)
  · intro shadow member
    rcases undoable.copied shadow member with ⟨page, original, copied⟩
    exact ⟨page, original, includes _ _ copied⟩

theorem Undoable.ne_missing {base pages : List Page} {transaction : Transaction}
    {index : PageIndex}
    (undoable : Undoable base transaction pages) (missing : fetch pages index = none) :
    ∀ shadow ∈ transaction.shadows, shadow.copy ≠ index := by
  intro shadow member
  rcases undoable.copied shadow member with ⟨page, _, copied⟩
  exact PageList.ne_of_fetch copied missing

namespace Transaction

variable {σ : Type} [Pager σ] [AtomicPager σ] {base : List Page} {page old : Page}
  {index : PageIndex} {touched : PageIndex → Prop}

/-- What a transaction does leaves most of it and most pages alone: of the pages only those that it
touches change, no copy is given up, and new copies are among the appended pages. -/
structure Advances (touched : PageIndex → Prop) (before after : Holding Transaction σ) : Prop where
  anchorIndex_eq : after.held.tree.anchorIndex = before.held.tree.anchorIndex
  config_eq : after.held.tree.config = before.held.tree.config
  anchorBefore_eq : after.held.anchorBefore = before.held.anchorBefore
  phase_eq : after.held.phase = before.held.phase
  kept : ∀ index page, ¬ touched index → fetch before.session.pages index = some page →
    fetch after.session.pages index = some page
  longer : before.session.pages.length ≤ after.session.pages.length
  copies : ∀ shadow ∈ after.held.shadows,
    shadow ∈ before.held.shadows ∨ fetch before.session.pages shadow.copy = none
  shadowed : ∀ shadow ∈ before.held.shadows, shadow ∈ after.held.shadows
  calm : before.session.Calm → after.session.Calm

/-- The pages that were appended are copies made by the transaction, apart from some. -/
def Adds (added : PageIndex → Prop) (before after : Holding Transaction σ) : Prop :=
  ∀ index page, fetch before.session.pages index = none →
    fetch after.session.pages index = some page →
      added index ∨ ∃ shadow ∈ after.held.shadows, shadow.copy = index

/-- The pager failed in the middle of what a transaction does. The transaction can still be undone.
A calm pager fails only when there are no more page indices. -/
structure Broken (base : List Page) (before : Holding Transaction σ) (failure : Failure TreeError)
    (after : Holding Transaction σ) : Prop where
  byPager : ∃ cause, failure = .error (.pager cause)
  advances : Advances (fun _ => True) before after
  undoable : Undoable base after.held after.session.pages
  full : before.session.Calm → Word.signedLimit ≤ after.session.pages.length

/-- The pager failed before any page was overwritten, and the tree is the same. -/
structure Halted (base : List Page) (before : Holding Transaction σ) (failure : Failure TreeError)
    (after : Holding Transaction σ) : Prop extends Broken base before failure after where
  untouched : Advances (fun _ => False) before after
  tree_eq : after.held.tree = before.held.tree

namespace Advances

variable {before middle after : Holding Transaction σ} {failure : Failure TreeError}

/-- What two stretches of work have touched together is what both have touched. -/
theorem trans {first second : PageIndex → Prop} (earlier : Advances first before middle)
    (later : Advances second middle after) :
    Advances (fun index => first index ∨ second index) before after where
  anchorIndex_eq := later.anchorIndex_eq.trans earlier.anchorIndex_eq
  config_eq := later.config_eq.trans earlier.config_eq
  anchorBefore_eq := later.anchorBefore_eq.trans earlier.anchorBefore_eq
  phase_eq := later.phase_eq.trans earlier.phase_eq
  kept index page untouched fetched :=
    later.kept index page (fun touched => untouched (Or.inr touched))
      (earlier.kept index page (fun touched => untouched (Or.inl touched)) fetched)
  longer := Nat.le_trans earlier.longer later.longer
  copies := by
    intro shadow member
    rcases later.copies shadow member with inMiddle | isNew
    · exact earlier.copies shadow inMiddle
    · exact Or.inr (PageList.fetch_none_of_le earlier.longer isNew)
  shadowed shadow member := later.shadowed shadow (earlier.shadowed shadow member)
  calm calm := later.calm (earlier.calm calm)

theorem mono {more : PageIndex → Prop} (advances : Advances touched before after)
    (implies : ∀ index page, fetch before.session.pages index = some page → touched index →
      more index) : Advances more before after :=
  { advances with
    kept := fun index page untouched fetched =>
      advances.kept index page (fun inTouched => untouched (implies index page fetched inTouched))
        fetched }

theorem refl (holding : Holding Transaction σ) : Advances (fun _ => False) holding holding where
  anchorIndex_eq := rfl
  config_eq := rfl
  anchorBefore_eq := rfl
  phase_eq := rfl
  kept _ _ _ := id
  longer := Nat.le_refl _
  copies _ := Or.inl
  shadowed _ := id
  calm := id

theorem of_untouched (advances : Advances (fun _ => False) before after) :
    Advances touched before after :=
  advances.mono fun _ _ _ => False.elim

theorem then_untouched (earlier : Advances touched before middle)
    (later : Advances (fun _ => False) middle after) : Advances touched before after :=
  (earlier.trans later).mono fun _ _ _ either => either.elim id False.elim

theorem untouched_then (earlier : Advances (fun _ => False) before middle)
    (later : Advances touched middle after) : Advances touched before after :=
  (earlier.trans later).mono fun _ _ _ either => either.elim False.elim id

theorem broken (earlier : Advances touched before middle)
    (fails : Broken base middle failure after) :
    Broken base before failure after where
  byPager := fails.byPager
  advances := (earlier.trans fails.advances).mono fun _ _ _ _ => trivial
  undoable := fails.undoable
  full calm := fails.full (earlier.calm calm)

theorem halted (earlier : Advances (fun _ => False) before middle)
    (tree_eq : middle.held.tree = before.held.tree) (fails : Halted base middle failure after) :
    Halted base before failure after :=
  { earlier.broken fails.toBroken with
    untouched := earlier.then_untouched fails.untouched
    tree_eq := fails.tree_eq.trans tree_eq }

/-- A page that is not touched and of which no copy was made before is not a copy afterwards. -/
theorem ne_copy (advances : Advances touched before after)
    (fetched : fetch before.session.pages index = some page)
    (notCopy : ∀ shadow ∈ before.held.shadows, shadow.copy ≠ index) :
    ∀ shadow ∈ after.held.shadows, shadow.copy ≠ index := by
  intro shadow member
  rcases advances.copies shadow member with earlier | isNew
  · exact notCopy shadow earlier
  · exact (PageList.ne_of_fetch fetched isNew).symm

end Advances

namespace Adds

variable {before middle after : Holding Transaction σ} {added more : PageIndex → Prop}

theorem trans (first : Adds added before middle) (second : Adds more middle after)
    (advances : Advances touched middle after) :
    Adds (fun index => added index ∨ more index) before after := by
  intro index page missing fetched
  cases inMiddle : fetch middle.session.pages index with
  | none => exact (second index page inMiddle fetched).imp_left Or.inr
  | some earlier =>
      rcases first index earlier missing inMiddle with isAdded | ⟨shadow, member, copy_eq⟩
      · exact Or.inl (Or.inl isAdded)
      · exact Or.inr ⟨shadow, advances.shadowed shadow member, copy_eq⟩

theorem mono (adds : Adds added before after) (implies : ∀ index, added index → more index) :
    Adds more before after := fun index page missing fetched =>
  (adds index page missing fetched).imp_left (implies index)

theorem of_none (adds : Adds (fun _ => False) before after) : Adds added before after :=
  adds.mono fun _ => False.elim

theorem then_none (first : Adds added before middle) (second : Adds (fun _ => False) middle after)
    (advances : Advances touched middle after) : Adds added before after :=
  (first.trans second advances).mono fun _ either => either.elim id False.elim

theorem of_length_le (shorter : after.session.pages.length ≤ before.session.pages.length) :
    Adds added before after := by
  intro index page missing fetched
  rw [PageList.fetch_none_of_le shorter missing] at fetched
  contradiction

end Adds

/-! ## Steps that change no page -/

variable {α : Type} {holding : Holding Transaction σ} {after : Session σ}
  {failure : Failure TreeError}

theorem Advances.of_longer (longer : holding.session.pages <+: after.pages)
    (calm : holding.session.Calm → after.Calm) :
    Advances (fun _ => False) holding { holding with session := after } where
  anchorIndex_eq := rfl
  config_eq := rfl
  anchorBefore_eq := rfl
  phase_eq := rfl
  kept index page _ fetched := includes_of_longer longer index page fetched
  longer := longer.length_le
  copies _ := Or.inl
  shadowed _ := id
  calm := calm

theorem Advances.of_still (still : holding.session.Still after) :
    Advances (fun _ => False) holding { holding with session := after } := by
  exact Advances.of_longer still.longer still.calm

theorem Halted.of_longer (undoable : Undoable base holding.held holding.session.pages)
    (byPager : ∃ cause, failure = .error (.pager cause))
    (longer : holding.session.pages <+: after.pages) (calm : holding.session.Calm → after.Calm)
    (full : holding.session.Calm → Word.signedLimit ≤ after.pages.length) :
    Halted base holding failure { holding with session := after } where
  byPager := byPager
  advances := (Advances.of_longer longer calm).of_untouched
  undoable := undoable.grow longer.length_le (includes_of_longer longer)
  full := full
  untouched := Advances.of_longer longer calm
  tree_eq := rfl

theorem Halted.of_denied (undoable : Undoable base holding.held holding.session.pages)
    (denied : holding.session.Denied failure after) :
    Halted base holding failure { holding with session := after } := by
  apply Halted.of_longer undoable denied.byPager denied.still.longer denied.still.calm
  intro calm
  exact absurd calm denied.stormy

/-- A transaction may look at the pages. Its own state stays the same. -/
theorem consult_ends (undoable : Undoable base holding.held holding.session.pages)
    {action : TreeM σ α} {found : α → Prop}
    (consults : Consults holding.session.pages action found) :
    Ends (within action holding)
      (fun value later => found value ∧ ∃ session, later = { holding with session } ∧
        holding.session.Still session ∧ action holding.session = .ok value session)
      (Halted base holding) := by
  apply HoldingM.within_ends
  apply Ends.mono ((consults holding.session rfl).and (Ends.self _ _))
  · rintro value session ⟨⟨holds, still⟩, given⟩
    exact ⟨holds, session, rfl, still, given⟩
  · rintro failure session ⟨denied, _⟩
    exact Halted.of_denied undoable denied

/-! ## Appending and overwriting -/

/-- An appended page lies past all that is to be undone. -/
theorem append_ends (undoable : Undoable base holding.held holding.session.pages) (page : Page) :
    Ends (within (TreeM.appendPage page) holding)
      (fun index after => fetch holding.session.pages index = none ∧
        fetch after.session.pages index = some page ∧ after.held = holding.held ∧
        Advances (fun _ => False) holding after ∧ Undoable base after.held after.session.pages ∧
        Adds (· = index) holding after)
      (Halted base holding) := by
  apply HoldingM.within_ends
  apply Ends.mono (TreeM.appendPage_ends page holding.session)
  · rintro index after ⟨rfl, room, appended, calm⟩
    have keeps : Includes holding.session.pages after.pages :=
      includes_of_longer ⟨[page], appended.symm⟩
    have longer : holding.session.pages.length ≤ after.pages.length := by
      rw [appended, List.length_append]
      exact Nat.le_add_right ..
    refine ⟨PageList.fetch_nextIndex_none room, ?_, rfl, ?_, undoable.grow longer keeps, ?_⟩
    · change fetch after.pages _ = _
      rw [appended]
      exact PageList.fetch_nextIndex room
    · exact ⟨rfl, rfl, rfl, rfl, fun other otherPage _ => keeps other otherPage, longer,
        fun _ => Or.inl, fun _ => id, calm⟩
    · intro other otherPage missing fetched
      change fetch after.pages _ = _ at fetched
      rw [appended] at fetched
      exact Or.inl (PageList.eq_nextIndex_of_append missing fetched)
  · intro failure after rejected
    exact Halted.of_longer undoable rejected.byPager rejected.longer rejected.calm fun calm =>
      Nat.le_trans (rejected.full calm) rejected.longer.length_le

/-- Pages that the transaction appended come after those that were there before. -/
theorem le_iff_fetch_none (room : base.length < Word.signedLimit)
    {pages : List Page} (fetched : fetch pages index = some page) :
    nextIndex base ≤ index ↔ fetch base index = none := by
  have nonnegative := (PageList.fetch_eq_some.mp fetched).1
  rw [Int64.le_iff_toInt_le, PageList.toInt_nextIndex room, fetch, if_neg (by omega),
    List.getElem?_eq_none_iff]
  omega

/-- After shadowing a page it is safe to overwrite it. -/
theorem shadow_ends (undoable : Undoable base holding.held holding.session.pages)
    (fetched : fetch holding.session.pages index = some page) :
    Ends (shadow index holding)
      (fun _ after => Advances (fun _ => False) holding after ∧
        Undoable base after.held after.session.pages ∧ after.held.tree = holding.held.tree ∧
        (fetch base index = none ∨ after.held.shadows.covers index = true) ∧
        Adds (fun _ => False) holding after)
      (Halted base holding) := by
  simp only [shadow]
  rw [HoldingM.held_bind]
  split
  next done =>
    refine ⟨?_, undoable, rfl, ?_, Adds.of_length_le (Nat.le_refl _)⟩
    · exact Advances.refl holding
    · rcases done with isFresh | covered
      · left
        rw [undoable.fresh] at isFresh
        exact (le_iff_fetch_none undoable.room fetched).mp isFresh
      · exact Or.inr covered
  next needed =>
    have uncovered : holding.held.shadows.covers index = false :=
      Bool.eq_false_iff.mpr fun covered => needed (Or.inr covered)
    -- A page that is not fresh and has no copy is as it was when the transaction began.
    have original : fetch base index = some page := by
      cases inBase : fetch base index with
      | none =>
          have isFresh := (le_iff_fetch_none undoable.room fetched).mpr inBase
          rw [← undoable.fresh] at isFresh
          exact absurd (Or.inl isFresh) needed
      | some basePage =>
          have same := undoable.kept index basePage inBase uncovered
          rw [fetched] at same
          exact same.symm
    apply Ends.bind (consult_ends undoable (Consults.readPage fetched))
    rintro page _ ⟨rfl, session, rfl, still, _⟩
    have undoableStill : Undoable base holding.held session.pages := by
      rw [still.pages_eq]
      exact undoable
    have first := Advances.of_still still
    apply Ends.bind (Ends.mono (append_ends undoableStill page) (fun _ _ => id)
      fun _ _ => first.halted rfl)
    rintro copy ⟨_, appended⟩ ⟨isNew, copied, rfl, second, undoableAfter, adds⟩
    have both : Advances (fun _ => False) holding ⟨holding.held, appended⟩ :=
      first.then_untouched second
    have pages_eq : session.pages = holding.session.pages := still.pages_eq
    have inserted : ⟨index, copy⟩ ∈ holding.held.shadows.insert ⟨index, copy⟩ :=
      Shadows.mem_insert.mpr (Or.inl rfl)
    refine ⟨?_, ?_, rfl, Or.inr (Shadows.covers_insert.mpr (Or.inl rfl)), ?_⟩
    · refine { both with copies := ?_, shadowed := ?_ }
      · intro shadow member
        rcases Shadows.mem_insert.mp member with rfl | earlier
        · right
          rw [← pages_eq]
          exact isNew
        · exact Or.inl earlier
      · intro shadow member
        exact Shadows.mem_insert.mpr (Or.inr member)
    · apply undoableAfter.insert original uncovered copied
      · exact PageList.fetch_none_of_le undoableStill.longer isNew
      · intro shadow member same
        rcases undoableStill.copied shadow member with ⟨_, _, earlier⟩
        exact PageList.ne_of_fetch earlier isNew same
    · intro other otherPage missing fetched
      rw [← pages_eq] at missing
      rcases adds other otherPage missing fetched with rfl | ⟨shadow, member, copy_eq⟩
      · exact Or.inr ⟨_, inserted, rfl⟩
      · exact Or.inr ⟨shadow, Shadows.mem_insert.mpr (Or.inr member), copy_eq⟩

/-- Writing a page that needs no copy any more changes that page, and leaves the transaction
undoable, if the page is not one of its copies. -/
theorem write_ends (undoable : Undoable base holding.held holding.session.pages)
    (fetched : fetch holding.session.pages index = some old)
    (notCopy : ∀ shadow ∈ holding.held.shadows, shadow.copy ≠ index)
    (safe : fetch base index = none ∨ holding.held.shadows.covers index = true) (page : Page) :
    Ends (within (TreeM.writePage page index) holding)
      (fun _ after => Advances (· = index) holding after ∧
        Undoable base after.held after.session.pages ∧ after.held = holding.held ∧
        fetch after.session.pages index = some page ∧ Adds (fun _ => False) holding after)
      (Halted base holding) := by
  apply HoldingM.within_ends
  apply Ends.mono (TreeM.writePage_ends fetched page)
  · rintro _ after ⟨stored, calm⟩
    have elsewhere : ∀ other, other ≠ index →
        fetch after.pages other = fetch holding.session.pages other := by
      intro other different
      rw [stored]
      exact PageList.fetch_store_of_ne fetched different.symm
    have sameLength : after.pages.length = holding.session.pages.length := by
      rw [stored]
      exact PageList.length_store
    have longer : holding.session.pages.length ≤ after.pages.length :=
      Nat.le_of_eq sameLength.symm
    refine ⟨?_, ?_, rfl, ?_, Adds.of_length_le (Nat.le_of_eq sameLength)⟩
    · refine ⟨rfl, rfl, rfl, rfl, ?_, longer, fun _ => Or.inl, fun _ => id, calm⟩
      intro other otherPage different otherFetched
      exact (elsewhere other different).trans otherFetched
    · refine { undoable with
        longer := Nat.le_trans undoable.longer longer, kept := ?_, copied := ?_ }
      · intro other otherPage inBase uncovered
        -- A page that has to stay is not the one written, which is fresh or has a copy.
        have different : other ≠ index := by
          rintro rfl
          rcases safe with isFresh | covered
          · rw [isFresh] at inBase
            contradiction
          · exact Bool.eq_false_iff.mp uncovered covered
        exact (elsewhere other different).trans (undoable.kept other otherPage inBase uncovered)
      · intro shadow member
        rcases undoable.copied shadow member with ⟨original, inBase, copied⟩
        exact ⟨original, inBase, (elsewhere _ (notCopy shadow member)).trans copied⟩
    · change fetch after.pages index = _
      rw [stored]
      exact PageList.fetch_store_same fetched
  · intro failure after denied
    exact Halted.of_denied undoable denied

/-- A page is copied before it is overwritten, unless it has been copied already or is new. So the
work can still be undone. -/
theorem overwrite_ends (undoable : Undoable base holding.held holding.session.pages)
    (fetched : fetch holding.session.pages index = some old)
    (notCopy : ∀ shadow ∈ holding.held.shadows, shadow.copy ≠ index) (page : Page) :
    Ends (overwrite index page holding)
      (fun _ after => Advances (· = index) holding after ∧
        Undoable base after.held after.session.pages ∧ after.held.tree = holding.held.tree ∧
        fetch after.session.pages index = some page ∧ Adds (fun _ => False) holding after)
      (Halted base holding) := by
  simp only [overwrite]
  apply Ends.bind (shadow_ends undoable fetched)
  rintro _ middle ⟨first, undoableMiddle, tree_eq, safe, copies⟩
  apply Ends.mono (write_ends undoableMiddle (first.kept index old id fetched)
    (first.ne_copy fetched notCopy) safe page)
  · rintro _ after ⟨second, undoableAfter, held_eq, written, none⟩
    refine ⟨first.untouched_then second, undoableAfter, ?_, written,
      copies.then_none none second⟩
    rw [held_eq]
    exact tree_eq
  · intro failure after fails
    exact first.halted tree_eq fails

end Transaction

end PagedMap
