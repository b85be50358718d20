import PagedMap.Proofs.Tree.Runs

/-!
# What a transaction copies

A transaction copies a page before it overwrites it. By itself it overwrites only pages of its tree:
the leaf where a search ends, the nodes on the way to it, and the anchor page. So the copies that it
makes are of these pages, apart from the page that a client has asked it to copy.
-/

namespace PagedMap

namespace Transaction

open HoldingM (held within)

variable {σ α β : Type} {anchorIndex index : PageIndex} {among more : PageIndex → Prop}
  {before middle after : Holding Transaction σ}

/-- The new copies are of some pages only, and the anchor page is the same. -/
structure Copies (among : PageIndex → Prop) (before after : Holding Transaction σ) : Prop where
  anchorIndex_eq : after.held.tree.anchorIndex = before.held.tree.anchorIndex
  shadows : ∀ shadow ∈ after.held.shadows, shadow ∈ before.held.shadows ∨ among shadow.page

namespace Copies

theorem of_shadows_eq (anchorIndex_eq : after.held.tree.anchorIndex = before.held.tree.anchorIndex)
    (shadows_eq : after.held.shadows = before.held.shadows) : Copies among before after := by
  refine ⟨anchorIndex_eq, fun shadow member => Or.inl ?_⟩
  rw [← shadows_eq]
  exact member

theorem of_held_eq (held_eq : after.held = before.held) : Copies among before after :=
  of_shadows_eq (by rw [held_eq]) (by rw [held_eq])

theorem trans (first : Copies among before middle) (second : Copies among middle after) :
    Copies among before after := by
  refine ⟨second.anchorIndex_eq.trans first.anchorIndex_eq, fun shadow member => ?_⟩
  rcases second.shadows shadow member with inMiddle | isNew
  · exact first.shadows shadow inMiddle
  · exact Or.inr isNew

theorem mono (copies : Copies among before after) (implies : ∀ index, among index → more index) :
    Copies more before after :=
  ⟨copies.anchorIndex_eq, fun shadow member =>
    (copies.shadows shadow member).imp_right (implies shadow.page)⟩

end Copies

/-- In every transaction with its anchor at an index, whatever its pages are, an action makes copies
of some pages only, whether or not it fails. -/
structure CopiesOnly (anchorIndex : PageIndex) (among : PageIndex → Prop)
    (action : TransactionM σ α) : Prop where
  ends : ∀ before : Holding Transaction σ, before.held.tree.anchorIndex = anchorIndex →
    Ends (action before) (fun _ after => Copies among before after)
      (fun _ after => Copies among before after)

namespace CopiesOnly

variable {action : TransactionM σ α}

theorem mono (copies : CopiesOnly anchorIndex among action)
    (implies : ∀ index, among index → more index) : CopiesOnly anchorIndex more action where
  ends before anchored := (copies.ends before anchored).mono (fun _ _ made => made.mono implies)
    fun _ _ made => made.mono implies

theorem pure (value : α) :
    CopiesOnly anchorIndex among (Pure.pure value : TransactionM σ α) where
  ends _ _ := Copies.of_held_eq rfl

theorem bind {next : α → TransactionM σ β} (first : CopiesOnly anchorIndex among action)
    (continues : ∀ value, CopiesOnly anchorIndex among (next value)) :
    CopiesOnly anchorIndex among (action >>= next) where
  ends before anchored := by
    apply Ends.bind (first.ends before anchored)
    intro value middle made
    apply Ends.mono ((continues value).ends middle (made.anchorIndex_eq.trans anchored))
    · exact fun _ _ => made.trans
    · exact fun _ _ => made.trans

theorem fail (error : TreeError) :
    CopiesOnly anchorIndex among (HoldingM.fail error : TransactionM σ α) where
  ends _ _ := Copies.of_held_eq rfl

theorem lift (outcome : Except Fault α) :
    CopiesOnly anchorIndex among (liftM outcome : TransactionM σ α) where
  ends _ _ := by
    cases outcome with
    | ok value => exact Copies.of_held_eq rfl
    | error fault => exact Copies.of_held_eq rfl

theorem within (action : TreeM σ α) :
    CopiesOnly anchorIndex among (HoldingM.within action : TransactionM σ α) where
  ends before _ := Ends.mono (HoldingM.within_holds action before)
    (fun _ _ => Copies.of_held_eq) fun _ _ => Copies.of_held_eq

theorem held_bind {next : Transaction → TransactionM σ α}
    (continues : ∀ transaction, transaction.tree.anchorIndex = anchorIndex →
      CopiesOnly anchorIndex among (next transaction)) :
    CopiesOnly anchorIndex among (held >>= next) where
  ends before anchored := by
    rw [HoldingM.held_bind]
    exact (continues before.held anchored).ends before anchored

end CopiesOnly

/-! ## Steps of a transaction -/

theorem requireActive_copies :
    CopiesOnly anchorIndex among (requireActive : TransactionM σ Unit) := by
  simp only [requireActive]
  apply CopiesOnly.held_bind
  intro transaction _
  split
  · exact .fail _
  · exact .pure ()

theorem setAnchor_copies (anchor : Anchor) :
    CopiesOnly anchorIndex among (setAnchor anchor : TransactionM σ Unit) where
  ends _ _ := Copies.of_shadows_eq rfl rfl

variable [Pager σ]

/-- If a page is copied, it is the one that is named. -/
theorem shadow_copies (index : PageIndex) :
    CopiesOnly anchorIndex (· = index) (shadow index : TransactionM σ Unit) := by
  refine ⟨fun before _ => ?_⟩
  simp only [shadow]
  rw [HoldingM.held_bind]
  split
  next => exact Copies.of_held_eq rfl
  next =>
    apply Ends.bind (Ends.mono (HoldingM.within_holds _ before) (fun _ _ => id)
      fun _ _ => Copies.of_held_eq)
    intro page first held_first
    apply Ends.bind (Ends.mono (HoldingM.within_holds _ first) (fun _ _ => id)
      fun _ _ held_eq => Copies.of_held_eq (held_eq.trans held_first))
    intro copy second held_second
    -- The one new copy is put among those from before.
    refine ⟨rfl, fun shadow member => ?_⟩
    rcases Shadows.mem_insert.mp member with rfl | earlier
    · exact Or.inr rfl
    · exact Or.inl earlier

theorem overwrite_copies (index : PageIndex) (page : Page) :
    CopiesOnly anchorIndex (· = index) (overwrite index page : TransactionM σ Unit) := by
  simp only [overwrite]
  exact (shadow_copies index).bind fun _ => .within _

theorem writeAnchor_copies : CopiesOnly anchorIndex among (writeAnchor : TransactionM σ Unit) := by
  simp only [writeAnchor]
  exact .held_bind fun _ _ => .within _

/-- A new root is appended, and only the anchor page is overwritten. -/
theorem growRoot_copies (left : PageIndex) (separator : Bytes) (right : PageIndex) :
    CopiesOnly anchorIndex (· = anchorIndex)
      (growRoot left separator right : TransactionM σ Unit) := by
  simp only [growRoot]
  apply (CopiesOnly.lift _).bind
  intro node
  apply (CopiesOnly.within _).bind
  intro root
  apply CopiesOnly.held_bind
  rintro transaction rfl
  apply (shadow_copies _).bind
  intro _
  apply (setAnchor_copies _).bind
  intro _
  apply writeAnchor_copies.bind
  intro _
  exact .within _

/-- The pages on the way up: nodes, and the anchor page above them. -/
def OnWay (anchorIndex : PageIndex) (path : List Step) (index : PageIndex) : Prop :=
  index = anchorIndex ∨ ∃ step ∈ path, index = step.index

/-- On the way up the nodes are copied, as far as they are reached, and the anchor page last. -/
theorem propagate_copies (path : List Step) (child : PageIndex) (separator : Bytes)
    (right : PageIndex) :
    CopiesOnly anchorIndex (OnWay anchorIndex path)
      (propagate path child separator right : TransactionM σ Unit) := by
  induction path generalizing child separator right with
  | nil =>
      rw [propagate]
      exact (growRoot_copies child separator right).mono fun _ => Or.inl
  | cons step above ih =>
      have here : ∀ index, index = step.index → OnWay anchorIndex (step :: above) index :=
        fun _ same => Or.inr ⟨step, List.mem_cons_self, same⟩
      have higher : ∀ index, OnWay anchorIndex above index →
          OnWay anchorIndex (step :: above) index := by
        rintro index (isAnchor | ⟨other, member, same⟩)
        · exact Or.inl isAnchor
        · exact Or.inr ⟨other, List.mem_cons_of_mem _ member, same⟩
      simp only [propagate]
      apply (CopiesOnly.lift _).bind
      intro node
      apply (CopiesOnly.lift _).bind
      intro lacksBytes
      apply CopiesOnly.held_bind
      intro transaction _
      split
      · apply (CopiesOnly.lift _).bind
        intro wider
        exact (overwrite_copies _ _).mono here
      · apply (CopiesOnly.lift _).bind
        intro midpoint
        apply (CopiesOnly.lift _).bind
        intro half
        apply (CopiesOnly.lift _).bind
        intro sides
        apply (CopiesOnly.within _).bind
        intro sibling
        apply ((overwrite_copies _ _).mono here).bind
        intro _
        apply (CopiesOnly.within _).bind
        intro _
        exact (ih _ _ _).mono higher

/-- The pages of a way down: the leaf at its end, the nodes on it, and the anchor page. -/
def Passing (anchorIndex : PageIndex) (found : Descent) (index : PageIndex) : Prop :=
  index = found.index ∨ OnWay anchorIndex found.path index

/-- Splitting a leaf copies it, and then what the way up overwrites. -/
theorem splitLeaf_copies (found : Descent) (place : Place) (key encoded : Bytes)
    (lacksBytes : Bool) :
    CopiesOnly anchorIndex (Passing anchorIndex found)
      (splitLeaf found place key encoded lacksBytes : TransactionM σ Unit) := by
  simp only [splitLeaf]
  apply (CopiesOnly.lift _).bind
  intro midpoint
  apply (CopiesOnly.lift _).bind
  intro half
  apply (CopiesOnly.lift _).bind
  intro sides
  apply (CopiesOnly.within _).bind
  intro rightIndex
  apply ((overwrite_copies _ _).mono fun _ => Or.inl).bind
  intro _
  apply (CopiesOnly.within _).bind
  intro _
  apply (CopiesOnly.lift _).bind
  intro separator
  exact (propagate_copies _ _ _ _).mono fun _ => Or.inr

/-- A leaf that has room for its records is only overwritten. -/
theorem rewrite_copies (found : Descent) (changed : Except Fault Leaf) :
    CopiesOnly anchorIndex (Passing anchorIndex found)
      (do let leaf ← liftM changed; overwrite found.index leaf.toPage : TransactionM σ Unit) := by
  apply (CopiesOnly.lift changed).bind
  intro leaf
  exact (overwrite_copies _ _).mono fun _ => Or.inl

/-- Writing an entry copies pages on the way to the leaf where its key belongs. -/
theorem put_copies (key value : Bytes) (before : Holding Transaction σ) :
    Ends (put key value before)
      (fun _ after => ∃ found reached,
        before.held.tree.descend key before.session = .ok found reached ∧
          Copies (Passing before.held.tree.anchorIndex found) before after)
      (fun _ _ => True) := by
  have searches : Ends (within (before.held.tree.descend key) before)
      (fun found after => after.held = before.held ∧ ∃ reached,
        before.held.tree.descend key before.session = .ok found reached)
      (fun _ _ => True) := by
    apply HoldingM.within_ends
    apply Ends.mono (Ends.self (before.held.tree.descend key) before.session)
    · exact fun _ reached found => ⟨rfl, reached, found⟩
    · exact fun _ _ _ => trivial
  simp only [put]
  rw [HoldingM.held_bind]
  apply Ends.bind searches
  rintro found middle ⟨held_eq, reached, search⟩
  -- From here on it does not matter what the pages are.
  refine Ends.mono (CopiesOnly.ends
    (show CopiesOnly before.held.tree.anchorIndex (Passing before.held.tree.anchorIndex found) _
      from ?_) middle (by rw [held_eq])) ?_ fun _ _ _ => trivial
  · apply (CopiesOnly.lift _).bind
    intro place
    apply (CopiesOnly.within _).bind
    intro encoded
    split
    · apply (CopiesOnly.lift _).bind
      intro overflows
      split
      · exact splitLeaf_copies _ _ _ _ _
      · exact rewrite_copies _ _
    · apply (CopiesOnly.lift _).bind
      intro lacksBytes
      split
      · exact splitLeaf_copies _ _ _ _ _
      · exact rewrite_copies _ _
  · exact fun _ after made => ⟨found, reached, search, (Copies.of_held_eq held_eq).trans made⟩

/-- Inserting makes the same copies, if it succeeds. -/
theorem insert_copies (key value : Bytes) (before : Holding Transaction σ)
    (active : before.held.phase = .active) (short : key.length ≤ maxKeySize) :
    Ends (insert key value before)
      (fun _ after => ∃ found reached,
        before.held.tree.descend key before.session = .ok found reached ∧
          Copies (Passing before.held.tree.anchorIndex found) before after)
      (fun _ _ => True) := by
  simp only [insert]
  rw [requireActive_bind active, if_neg (Nat.not_lt.mpr short)]
  apply Ends.tryCatch (put_copies key value before)
  -- A failure is reported in the end, whether or not it is undone before.
  intro failure middle _
  split
  · split
    · apply Ends.bind (Ends.any _)
      exact fun _ _ _ => trivial
    · trivial
  · trivial

end Transaction

/-! ## Calls -/

section

open Transaction

variable {σ : Type} [Pager σ] [AtomicPager σ] {base : List Page} {limit : Nat}
  {outline : Outline} {contents : Contents} {holding : Holding Transaction σ}

/-- What a search passes belongs to the tree. -/
theorem Transaction.Maintains.exposes_passing {key : Bytes} {found : Descent} {reached : Session σ}
    {index : PageIndex} (maintains : Maintains base limit outline contents holding)
    (search : holding.held.tree.descend key holding.session = .ok found reached)
    (passing : Passing holding.held.tree.anchorIndex found index) :
    outline.Exposes holding.held.tree.anchorIndex index := by
  rcases (maintains.keeps.descend_consults key holding.session rfl).of_ok search with
    ⟨⟨front, sheet, back, landing, _, _⟩, _⟩
  rcases passing with isLeaf | isAnchor | ⟨step, member, same⟩
  · exact Or.inr (Or.inr ⟨sheet, by simp [landing.sheets_eq], isLeaf.trans landing.index_eq⟩)
  · exact Or.inl isAnchor
  · rcases landing.trail.exists_group member with ⟨group, inLevels, index_eq⟩
    exact Or.inr (Or.inl ⟨group, inLevels, same.trans index_eq.symm⟩)

/-- The pages that a call asks to have copied. -/
def Call.asks : Call → List PageIndex
  | shadow index => [index]
  | _ => []

/-- The pages that a call may copy: the anchor, the nodes and the leaves of the tree, and what it
asks to have copied. -/
def Call.MayCopy (call : Call) (outline : Outline) (anchorIndex index : PageIndex) : Prop :=
  outline.Exposes anchorIndex index ∨ index ∈ call.asks

omit [AtomicPager σ] in
/-- Any other call copies at most the page that it names. -/
theorem Call.copies_of_no_insert {anchorIndex : PageIndex} {call : Call}
    (noInsert : ∀ key value, call ≠ .insert key value) :
    CopiesOnly anchorIndex (· ∈ call.asks) (call.perform : TransactionM σ Unit) := by
  cases call with
  | insert key value => exact absurd rfl (noInsert key value)
  | get? key =>
      simp only [perform, Transaction.get?]
      refine .bind (.bind requireActive_copies fun _ => .held_bind fun _ _ => .within _) fun _ => ?_
      exact .pure ()
  | contains key =>
      simp only [perform, Transaction.contains]
      refine .bind (.bind requireActive_copies fun _ => .held_bind fun _ _ => .within _) fun _ => ?_
      exact .pure ()
  | erase key =>
      simp only [perform, Transaction.erase]
      exact requireActive_copies.bind fun _ => .fail _
  | shadow index =>
      simp only [perform]
      exact (shadow_copies index).mono fun _ => List.mem_singleton.mpr

/-- A call that is attempted makes no other copies, as long as the transaction goes on. -/
theorem Transaction.attempt_copies (maintains : Maintains base limit outline contents holding)
    (active : holding.held.phase = .active) (bounded : limit ≤ 255)
    (roomy : holding.held.tree.config.maxEntries ≤ limit) (call : Call) :
    Ends (attempt call holding)
      (fun _ after => Copies (call.MayCopy outline holding.held.tree.anchorIndex) holding after)
      (fun _ _ => True) := by
  have other : (∀ key value, call ≠ .insert key value) → Ends (call.perform holding)
      (fun _ after => Copies (call.MayCopy outline holding.held.tree.anchorIndex) holding after)
      (fun failure after => (∃ error, failure = .error error) ∧ (after.held.phase = .active ∧
          Copies (call.MayCopy outline holding.held.tree.anchorIndex) holding after ∨
        after.held.phase ≠ .active ∧ True)) := by
    intro noInsert
    have copies : CopiesOnly holding.held.tree.anchorIndex
        (call.MayCopy outline holding.held.tree.anchorIndex)
        (call.perform : TransactionM σ Unit) :=
      (Call.copies_of_no_insert noInsert).mono fun _ => Or.inr
    apply ((copies.ends holding rfl).and
      (Call.perform_ends_of_no_insert maintains active noInsert)).mono
    · exact fun _ _ => And.left
    · rintro failure after ⟨made, isError, continues, _⟩
      exact ⟨isError, Or.inl ⟨continues.advances.phase_eq.trans active, made⟩⟩
  apply attempt_ends
  cases call with
  | insert key value =>
      by_cases short : key.length ≤ maxKeySize
      · apply ((insert_copies key value.val holding active short).and
          (insert_ends maintains active bounded roomy short value.2)).mono
        · rintro _ after ⟨⟨found, reached, search, made⟩, _⟩
          exact made.mono fun index passing => Or.inl (maintains.exposes_passing search passing)
        · rintro failure after ⟨_, ⟨cause, rfl⟩, middle, _, givenUp, _⟩
          exact ⟨⟨_, rfl⟩, Or.inr ⟨givenUp.aborted.ended, trivial⟩⟩
      · change Ends (Transaction.insert key value.val holding) _ _
        rw [insert_eq_of_long active (Nat.lt_of_not_le short) value.val]
        exact ⟨⟨_, rfl⟩, Or.inl ⟨active, Copies.of_held_eq rfl⟩⟩
  | get? key => exact other (by simp)
  | contains key => exact other (by simp)
  | erase key => exact other (by simp)
  | shadow index => exact other (by simp)

end

end PagedMap
