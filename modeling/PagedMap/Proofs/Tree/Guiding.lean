import PagedMap.Proofs.Pager.Watching
import PagedMap.Proofs.Tree.Decoding
import PagedMap.Proofs.Tree.Iterations

/-!
# Looking things up in pages that were altered

A computation that consults pages goes one way through the pages that were there at some time. On
later pages, of which some may have been altered since, it goes the same way until it comes to one
that was altered. So before it reads a page that was not there at that time, it has read one that
was altered: nothing else can lead it there.
-/

namespace PagedMap

open PageList (fetch)

variable {σ α β : Type} [Pager σ] [AtomicPager σ] {base later : List Page}
  {index : PageIndex} {seen more : List PageIndex}

/-- A page is no longer what it was. -/
def Altered (base later : List Page) (index : PageIndex) : Prop :=
  ∃ page, fetch base index = some page ∧ fetch later index ≠ some page

/-- Pages that were not there are read only after one that was altered. -/
def Excused (base later : List Page) (seen : List PageIndex) : Prop :=
  ∀ front index back, seen = front ++ index :: back → fetch base index = none →
    ∃ other ∈ front, Altered base later other

namespace Excused

theorem nil : Excused base later [] := by
  intro front index back split
  simp at split

theorem singleton {page : Page} (fetched : fetch base index = some page) :
    Excused base later [index] := by
  intro front other back split missing
  have member : other ∈ [index] := by
    rw [split]
    simp
  rw [List.mem_singleton.mp member, fetched] at missing
  contradiction

/-- A longer list of pages is excused if its first part is, and the second part is or follows upon
an altered page. -/
theorem append (first : Excused base later seen)
    (second : (∃ other ∈ seen, Altered base later other) ∨ Excused base later more) :
    Excused base later (seen ++ more) := by
  intro front index back split missing
  rcases List.append_eq_append_iff.mp split with ⟨between, front_eq, more_eq⟩ | ⟨between, seen_eq, rest_eq⟩
  · rcases second with ⟨other, member, altered⟩ | excused
    · exact ⟨other, by rw [front_eq]; exact List.mem_append_left _ member, altered⟩
    · rcases excused between index back more_eq missing with ⟨other, member, altered⟩
      exact ⟨other, by rw [front_eq]; exact List.mem_append_right _ member, altered⟩
  · cases between with
    | nil =>
        rw [List.append_nil] at seen_eq
        subst seen_eq
        rcases second with altered | excused
        · exact altered
        · rcases excused [] index back rest_eq.symm missing with ⟨other, member, _⟩
          contradiction
    | cons inside between =>
        injection rest_eq with same _
        exact first front index between (by rw [seen_eq, same]) missing

end Excused

/-- A computation only looks at pages. -/
def LooksOnly (action : TreeM (Watching σ) α) : Prop :=
  ∀ session, ∃ seen, Looks session seen (lastState (action session))

/-- On later pages, a computation goes the way that a guide goes on the pages from before, and
finds the same, unless it comes to a page that was altered. -/
structure Guided (base : List Page) (action : TreeM (Watching σ) α) (guide : TreeM Memory α) :
    Prop where
  looks : LooksOnly action
  follows : ∀ (session : Session (Watching σ)) (guiding guided : Session Memory) (value : α),
    base.length ≤ session.pages.length → guiding.pages = base →
    guide guiding = .ok value guided →
    guided.pages = base ∧ ∃ seen, Looks session seen (lastState (action session)) ∧
      Excused base session.pages seen ∧ ((∃ other ∈ seen, Altered base session.pages other) ∨
        ∀ given, outcomeOf (action session) = .ok given → given = value)

namespace Guided

variable {action : TreeM (Watching σ) α} {guide : TreeM Memory α}

theorem pure (value : α) :
    Guided base (Pure.pure value : TreeM (Watching σ) α) (Pure.pure value) := by
  refine ⟨fun session => ⟨[], Looks.refl session⟩, ?_⟩
  intro session guiding guided found _ guiding_eq given
  injection given with same kept
  refine ⟨kept ▸ guiding_eq, [], Looks.refl session, Excused.nil, Or.inr ?_⟩
  intro other outcome
  injection outcome with outcome
  exact outcome.symm.trans same

theorem unled (looks : LooksOnly action)
    (fails : ∀ guiding, ∃ failure after, guide guiding = .error failure after) :
    Guided base action guide := by
  refine ⟨looks, ?_⟩
  intro session guiding guided value _ _ given
  rcases fails guiding with ⟨failure, after, failed⟩
  rw [failed] at given
  contradiction

theorem throw (failure : Failure TreeError) :
    Guided base (MonadExcept.throw failure : TreeM (Watching σ) α) (MonadExcept.throw failure) :=
  unled (fun session => ⟨[], Looks.refl session⟩) fun guiding => ⟨failure, guiding, rfl⟩

theorem lift (outcome : Except Fault α) :
    Guided base (liftM outcome : TreeM (Watching σ) α) (liftM outcome) := by
  cases outcome with
  | ok value => exact pure value
  | error fault => exact throw (.fault fault)

/-- Up to an altered page two computations read alike. After it nothing is claimed of either. -/
theorem bind {next : α → TreeM (Watching σ) β} {guideNext : α → TreeM Memory β}
    (first : Guided base action guide)
    (continues : ∀ value, Guided base (next value) (guideNext value)) :
    Guided base (action >>= next) (guide >>= guideNext) := by
  constructor
  · intro session
    rcases first.looks session with ⟨seen, looks⟩
    cases given : action session with
    | ok value middle =>
        rw [given] at looks
        rw [bind_eq_of_ok given]
        rcases (continues value).looks middle with ⟨more, looksMore⟩
        exact ⟨seen ++ more, looks.trans looksMore⟩
    | error failure middle =>
        rw [given] at looks
        rw [bind_eq_of_error given]
        exact ⟨seen, looks⟩
  · intro session guiding guided value longer guiding_eq given
    rcases exists_of_bind_eq_ok given with ⟨middle, between, guides, goesOn⟩
    rcases first.follows session guiding between middle longer guiding_eq guides with
      ⟨between_eq, seen, looks, excused, same⟩
    have outOfWay : ∀ after, session.Still after → base.length ≤ after.pages.length := by
      intro after still
      rw [still.pages_eq]
      exact longer
    cases ran : action session with
    | ok found after =>
        rw [ran] at looks same
        rw [bind_eq_of_ok ran]
        rcases (continues middle).follows after between guided value (outOfWay after looks.still)
          between_eq goesOn with ⟨guided_eq, more, looksMore, excusedMore, sameMore⟩
        have kept : after.pages = session.pages := looks.still.pages_eq
        rw [kept] at excusedMore sameMore
        refine ⟨guided_eq, ?_⟩
        -- Once an altered page was read, whatever follows is excused. Before that both find the
        -- same.
        rcases same with ⟨other, member, altered⟩ | same
        · rcases (continues found).looks after with ⟨astray, looksAstray⟩
          exact ⟨seen ++ astray, looks.trans looksAstray,
            excused.append (Or.inl ⟨other, member, altered⟩),
            Or.inl ⟨other, List.mem_append_left _ member, altered⟩⟩
        · rw [same found rfl]
          refine ⟨seen ++ more, looks.trans looksMore, excused.append (Or.inr excusedMore), ?_⟩
          rcases sameMore with ⟨other, member, altered⟩ | sameMore
          · exact Or.inl ⟨other, List.mem_append_right _ member, altered⟩
          · exact Or.inr sameMore
    | error failure after =>
        rw [ran] at looks
        rw [bind_eq_of_error ran]
        rcases (continues middle).follows after between guided value (outOfWay after looks.still)
          between_eq goesOn with ⟨guided_eq, _⟩
        refine ⟨guided_eq, seen, looks, excused, Or.inr ?_⟩
        intro given outcome
        contradiction

/-! ## Calls of the pager -/

/-- A page is read on a watched pager as on the pager inside, and what is read is noted. -/
theorem readPage (index : PageIndex) :
    Guided base (TreeM.readPage index : TreeM (Watching σ) Page) (TreeM.readPage index) := by
  have looks : ∀ session : Session (Watching σ),
      Looks session [index] (lastState (TreeM.readPage index session)) := fun session =>
    lastState_of_ends ((readPage_looks index session).mono (fun _ _ => And.right)
      fun _ _ => And.right)
  refine ⟨fun session => ⟨[index], looks session⟩, ?_⟩
  rintro session guiding guided page _ rfl given
  rcases (TreeM.readPage_any index guiding).of_ok given with ⟨fetched, still⟩
  refine ⟨still.pages_eq, [index], looks session, Excused.singleton fetched, ?_⟩
  by_cases same : fetch session.pages index = some page
  · right
    intro other outcome
    cases read : TreeM.readPage index session with
    | ok found after =>
        have foundThere := ((readPage_looks index session).of_ok read).1
        rw [read] at outcome
        injection outcome with outcome
        rw [foundThere, outcome] at same
        injection same
    | error failure after =>
        rw [read] at outcome
        contradiction
  · exact Or.inl ⟨index, List.mem_singleton_self index, page, fetched, same⟩

theorem readView (index : PageIndex) :
    Guided base (TreeM.readView index : TreeM (Watching σ) View) (TreeM.readView index) := by
  apply bind (readPage index)
  intro page
  cases page.view with
  | ok view => exact pure view
  | error unknown => exact throw _

theorem readLeaf (index : PageIndex) :
    Guided base (TreeM.readLeaf index : TreeM (Watching σ) Leaf) (TreeM.readLeaf index) := by
  apply bind (readView index)
  intro view
  cases view with
  | leaf leaf => exact pure leaf
  | blank | anchor _ | node _ | overflow _ => exact throw _

/-- What depends on the number of pages goes the same way if there are more of them. -/
theorem pageCount_bind {next : Nat → TreeM (Watching σ) β} {guideNext : Nat → TreeM Memory β}
    (looks : ∀ count, LooksOnly (next count))
    (continues : ∀ count, base.length ≤ count → Guided base (next count) (guideNext base.length)) :
    Guided base (TreeM.pageCount >>= next) (TreeM.pageCount >>= guideNext) := by
  constructor
  · intro session
    have counts := pageCount_looks session
    cases counted : TreeM.pageCount session with
    | ok count middle =>
        rcases looks count middle with ⟨seen, looksMore⟩
        rw [bind_eq_of_ok counted]
        exact ⟨seen, (counts.of_ok counted).2.trans looksMore⟩
    | error failure middle =>
        rw [bind_eq_of_error counted]
        exact ⟨[], (counts.of_error counted).2⟩
  · rintro session guiding guided value longer rfl given
    rcases (Consults.pageCount guiding rfl).exists_ok (fun _ _ denied => denied.stormy trivial) with
      ⟨_, between, guides, rfl, still⟩
    rw [bind_eq_of_ok guides] at given
    have counts := pageCount_looks session
    have follows := (continues session.pages.length longer).follows
    cases counted : TreeM.pageCount session with
    | ok count middle =>
        rcases counts.of_ok counted with ⟨rfl, looksCount⟩
        have kept : middle.pages = session.pages := looksCount.still.pages_eq
        rw [bind_eq_of_ok counted]
        rcases follows middle between guided value (kept ▸ longer) still.pages_eq given with
          ⟨guided_eq, seen, looksMore, excused⟩
        rw [kept] at excused
        exact ⟨guided_eq, seen, looksCount.trans looksMore, excused⟩
    | error failure middle =>
        rw [bind_eq_of_error counted]
        rcases follows session between guided value longer still.pages_eq given with
          ⟨guided_eq, _⟩
        refine ⟨guided_eq, [], (counts.of_error counted).2, Excused.nil, Or.inr ?_⟩
        intro found outcome
        contradiction

end Guided

/-! ## Looking things up -/

theorem LooksOnly.of_asksAtMost {action : TreeM (Watching σ) α} {most : Nat}
    (asks : AsksAtMost most action) : LooksOnly action := by
  intro session
  rcases asks session with ⟨seen, looks, _⟩
  exact ⟨seen, looks⟩

/-- Over more pages, a chain is followed at least as far. -/
theorem Value.follow_guided {fewer more : Nat} (more_le : fewer ≤ more) (next : PageIndex)
    (value : Bytes) :
    Guided base (follow more next value : TreeM (Watching σ) Bytes) (follow fewer next value) := by
  induction fewer generalizing more next value with
  | zero =>
      by_cases ended : next = 0
      · unfold follow
        rw [if_pos ended, if_pos ended]
        exact Guided.pure value
      · apply Guided.unled (LooksOnly.of_asksAtMost (follow_asksAtMost more next value))
        intro guiding
        rw [follow, if_neg ended]
        exact ⟨_, guiding, rfl⟩
  | succ fewer ih =>
      rcases Nat.exists_eq_add_of_le more_le with ⟨extra, more_eq⟩
      rw [Nat.add_right_comm] at more_eq
      rw [more_eq]
      by_cases ended : next = 0
      · rw [follow, follow, if_pos ended, if_pos ended]
        exact Guided.pure value
      · rw [follow, follow, if_neg ended, if_neg ended]
        apply Guided.bind (Guided.readView next)
        intro view
        cases view with
        | overflow part =>
            apply Guided.bind (Guided.lift part.data)
            intro data
            exact ih (Nat.le_add_right fewer extra) part.next (value ++ data)
        | blank | anchor _ | node _ | leaf _ => exact Guided.throw _

theorem Value.decode_guided (encoded : Bytes) :
    Guided base (decode encoded : TreeM (Watching σ) Bytes) (decode encoded) := by
  cases encoded with
  | nil => exact Guided.throw _
  | cons tag rest =>
      simp only [decode]
      split
      · exact Guided.pure rest
      split
      · exact Guided.throw _
      split
      · exact Guided.throw _
      next head _ =>
        exact Guided.pageCount_bind
          (fun count => LooksOnly.of_asksAtMost (follow_asksAtMost count head (rest.drop 8)))
          (fun count more_le => follow_guided more_le head (rest.drop 8))

namespace Tree

variable (tree : Tree)

/-- Each step down depends on the page before it only. -/
theorem descendFrom_guided (choose : Node → Except Fault Int) (limit : Nat) (index : PageIndex)
    (path : List Step) :
    Guided base (descendFrom choose limit index path : TreeM (Watching σ) Descent)
      (descendFrom choose limit index path) := by
  induction limit generalizing index path with
  | zero => exact Guided.throw _
  | succ limit ih =>
      apply Guided.bind (Guided.readView index)
      intro view
      cases view with
      | node node =>
          apply Guided.bind (Guided.lift (choose node))
          intro taken
          apply Guided.bind (Guided.lift (node.child taken))
          intro child
          exact ih child _
      | leaf leaf => exact Guided.pure _
      | blank | anchor _ | overflow _ => exact Guided.throw _

theorem get?_guided (key : Bytes) :
    Guided base (tree.get? key : TreeM (Watching σ) (Option Bytes)) (tree.get? key) := by
  apply Guided.bind (descendFrom_guided _ _ _ _)
  intro found
  apply Guided.bind (Guided.lift (found.leaf.find key))
  intro place
  split
  · apply Guided.bind (Guided.lift _)
    intro encoded
    apply Guided.bind (Value.decode_guided encoded)
    intro value
    exact Guided.pure _
  · exact Guided.pure _

theorem contains_guided (key : Bytes) :
    Guided base (tree.contains key : TreeM (Watching σ) Bool) (tree.contains key) := by
  apply Guided.bind (descendFrom_guided _ _ _ _)
  intro found
  apply Guided.bind (Guided.lift (found.leaf.find key))
  intro place
  exact Guided.pure _

theorem leftmostLeaf_guided :
    Guided base (tree.leftmostLeaf : TreeM (Watching σ) Leaf) tree.leftmostLeaf := by
  apply Guided.bind (descendFrom_guided _ _ _ _)
  intro found
  exact Guided.pure _

theorem countFrom_guided (limit : Nat) (leaf : Leaf) (counted : Nat) :
    Guided base (tree.countFrom limit leaf counted : TreeM (Watching σ) Nat)
      (tree.countFrom limit leaf counted) := by
  induction limit generalizing leaf counted with
  | zero =>
      unfold countFrom
      split
      · exact Guided.pure _
      · exact Guided.throw _
  | succ limit ih =>
      unfold countFrom
      split
      · exact Guided.pure _
      · apply Guided.bind (Guided.readLeaf leaf.next)
        intro next
        exact ih next _

theorem size_guided : Guided base (tree.size : TreeM (Watching σ) Nat) tree.size := by
  apply Guided.bind tree.leftmostLeaf_guided
  intro leaf
  exact tree.countFrom_guided walkLimit leaf 0

end Tree

namespace Cursor

variable (tree : Tree)

theorem start_guided : Guided base (start tree : TreeM (Watching σ) Cursor) (start tree) := by
  apply Guided.bind tree.leftmostLeaf_guided
  intro leaf
  exact Guided.pure _

omit [AtomicPager σ] in
/-- From within a leaf, a cursor is worked on in a session. -/
theorem workOn_advanceWithin (limit : Nat) (leaf : Leaf) (passed : Nat) :
    (HoldingM.workOn ⟨some leaf, passed⟩ (advanceWithin tree limit) :
        TreeM σ (Option Entry × Cursor)) =
      if passed < leaf.count then do
        let key ← liftM (leaf.key passed)
        let encoded ← liftM (leaf.value passed)
        let value ← Value.decode encoded
        return (some ⟨key, value⟩, ⟨some leaf, passed + 1⟩)
      else if leaf.next = tree.anchor.sentinel then
        return (none, ⟨none, passed⟩)
      else
        match limit with
        | 0 => throw (.fault .endless)
        | limit + 1 => (do
          let next ← TreeM.readLeaf leaf.next
          HoldingM.workOn ⟨some next, 0⟩ (advanceWithin tree limit)) := by
  rw [advanceWithin.eq_def, HoldingM.workOn_held_bind]
  simp only
  split
  · rw [HoldingM.workOn_lift_bind]
    congr 1
    funext key
    rw [HoldingM.workOn_lift_bind]
    congr 1
    funext encoded
    rw [HoldingM.workOn_within_bind]
    rfl
  split
  · rfl
  cases limit with
  | zero => rfl
  | succ limit =>
      simp only
      rw [HoldingM.workOn_within_bind]
      rfl

omit [AtomicPager σ] in
theorem workOn_atEnd (limit passed : Nat) :
    (HoldingM.workOn ⟨none, passed⟩ (advanceWithin tree limit) :
        TreeM σ (Option Entry × Cursor)) = pure (none, ⟨none, passed⟩) := by
  rw [advanceWithin.eq_def, HoldingM.workOn_held_bind]
  rfl

omit [AtomicPager σ] in
/-- An error at the end of a cursor is all that is seen of it. -/
theorem workOn_next (cursor : Cursor) :
    (HoldingM.workOn cursor (next tree) : TreeM σ (Option Entry × Cursor)) =
      HoldingM.workOn cursor (advance tree) := by
  funext session
  have nexts : next tree ⟨cursor, session⟩ = EStateM.tryCatch (advance tree) _ _ := rfl
  delta EStateM.tryCatch at nexts
  simp only [HoldingM.workOn, nexts]
  rcases advance tree ⟨cursor, session⟩ with ⟨entry, after⟩ | ⟨error | fault, after⟩
  · rfl
  · rfl
  · rfl

/-- An entry of a leaf is decoded under guidance, since its value tells which pages to read. -/
theorem entry_guided (leaf : Leaf) (passed : Nat) :
    Guided base
      (do
        let key ← liftM (leaf.key passed)
        let encoded ← liftM (leaf.value passed)
        let value ← Value.decode encoded
        return (some ⟨key, value⟩, ⟨some leaf, passed + 1⟩) :
          TreeM (Watching σ) (Option Entry × Cursor))
      (do
        let key ← liftM (leaf.key passed)
        let encoded ← liftM (leaf.value passed)
        let value ← Value.decode encoded
        return (some ⟨key, value⟩, ⟨some leaf, passed + 1⟩)) := by
  apply Guided.bind (Guided.lift (leaf.key passed))
  intro key
  apply Guided.bind (Guided.lift (leaf.value passed))
  intro encoded
  apply Guided.bind (Value.decode_guided encoded)
  intro value
  exact Guided.pure _

/-- A cursor is guided from leaf to leaf by what it reads in them. -/
theorem advanceWithin_guided (limit : Nat) (cursor : Cursor) :
    Guided base
      (HoldingM.workOn cursor (advanceWithin tree limit) :
        TreeM (Watching σ) (Option Entry × Cursor))
      (HoldingM.workOn cursor (advanceWithin tree limit)) := by
  rcases cursor with ⟨_ | leaf, passed⟩
  · rw [workOn_atEnd, workOn_atEnd]
    exact Guided.pure _
  induction limit generalizing leaf passed with
  | zero =>
      rw [workOn_advanceWithin, workOn_advanceWithin]
      split
      · exact entry_guided leaf passed
      split
      · exact Guided.pure _
      · exact Guided.throw _
  | succ limit ih =>
      rw [workOn_advanceWithin, workOn_advanceWithin]
      split
      · exact entry_guided leaf passed
      split
      · exact Guided.pure _
      · apply Guided.bind (Guided.readLeaf leaf.next)
        intro next
        exact ih 0 next

theorem next_guided (cursor : Cursor) :
    Guided base
      (HoldingM.workOn cursor (next tree) : TreeM (Watching σ) (Option Entry × Cursor))
      (HoldingM.workOn cursor (next tree)) := by
  rw [workOn_next, workOn_next]
  exact advanceWithin_guided tree walkLimit cursor

theorem take_guided (most : Nat) (cursor : Cursor) :
    Guided base
      (HoldingM.workOn cursor (take tree most) : TreeM (Watching σ) (List Entry × Cursor))
      (HoldingM.workOn cursor (take tree most)) := by
  induction most generalizing cursor with
  | zero =>
      simp only [take]
      rw [HoldingM.workOn_pure, HoldingM.workOn_pure]
      exact Guided.pure _
  | succ most ih =>
      simp only [take]
      rw [HoldingM.workOn_bind, HoldingM.workOn_bind]
      apply Guided.bind (next_guided tree cursor)
      rintro ⟨_ | entry, after⟩
      · simp only
        rw [HoldingM.workOn_pure, HoldingM.workOn_pure]
        exact Guided.pure _
      · simp only
        rw [HoldingM.workOn_bind, HoldingM.workOn_bind]
        apply Guided.bind (ih after)
        intro given
        rw [HoldingM.workOn_pure, HoldingM.workOn_pure]
        exact Guided.pure _

end Cursor

theorem Tree.entries_guided (tree : Tree) (most : Nat) :
    Guided base (tree.entries most : TreeM (Watching σ) (List Entry)) (tree.entries most) := by
  apply Guided.bind (Cursor.start_guided tree)
  intro cursor
  apply Guided.bind (Cursor.take_guided tree most cursor)
  intro given
  exact Guided.pure _

end PagedMap
