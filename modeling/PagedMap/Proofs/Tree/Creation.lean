import PagedMap.Proofs.Tree.Refinement
import PagedMap.Proofs.Tree.Sparing

/-!
# Making a tree is interrupted

Making a tree takes several calls of the pager, and each of them may fail. What is stored then is
either nothing, or the whole tree, or an anchor page that holds the place of the anchor and names no
leaves. In the first two cases the tree can be opened later as if nothing had happened. In the third
case the anchor page cannot be told from one of a tree, and what is opened has page zero for its
root, whatever that page is.
-/

namespace PagedMap

open PageList (fetch)

variable {σ : Type} [Pager σ] [AtomicPager σ] {base pages : List Page} {index : PageIndex}
  {tree : Tree} {session : Session σ}

/-- Pages after attempts to open a tree where there was none, all of which have failed. Between two
of them the pages may be taken to another session. -/
inductive Attempted (σ : Type) [Pager σ] [AtomicPager σ] (index : PageIndex) (base : List Page) :
    List Page → Prop where
  | never : Attempted σ index base base
  | again {pages : List Page} {config : Config} {failure : Failure TreeError}
      {session after : Session σ} (earlier : Attempted σ index base pages)
      (same : session.pages = pages)
      (fails : Tree.openOrCreate index config session = .error failure after) :
      Attempted σ index base after.pages

/-- However often it was attempted, what is stored is what one attempt leaves behind. -/
theorem Attempted.leftover (attempted : Attempted σ index base pages)
    (creatable : Creatable base index) : Leftover base index pages := by
  induction attempted with
  | never => exact .nothing rfl
  | @again pages config failure session after _ same fails ih =>
      -- An anchor that is stored is opened, and a failure to do so changes nothing.
      have unchanged : ∀ anchor : Anchor, fetch pages index = some anchor.toPage →
          after.pages = pages := by
        intro anchor anchored
        have opens := Tree.openOrCreate_consults (σ := σ) anchored config session same
        exact (opens.of_error fails).still.pages_eq.trans same
      cases ih with
      | nothing isBase =>
          have creatableStill : Creatable session.pages index := by
            rw [same, isBase]
            exact creatable
          have unopened := (Tree.openOrCreate_ends config creatableStill).of_error fails
          rw [← isBase, ← same]
          exact unopened.breaks.leftover
      | placeholder stored others =>
          rw [unchanged _ stored]
          exact .placeholder stored others
      | finished fresh anchorIndex_eq =>
          rw [unchanged _ (anchorIndex_eq ▸ fresh.anchored)]
          exact .finished fresh anchorIndex_eq

/-- A tree that can be used and keeps nothing: it finds no key and passes no entry. It has two empty
leaves for its own, and it never touches the pages from before it. -/
structure Usable (base : List Page) (index : PageIndex) (config : Config) (tree : Tree)
    (session : Session σ) : Prop where
  anchorIndex_eq : tree.anchorIndex = index
  config_eq : tree.config = config
  fresh : Fresh base tree session.pages
  get? : ∀ key, Gives (tree.get? key) session none
  entries : ∀ most, Gives (tree.entries most) session []
  spares : AlwaysSpares base index session tree

/-- The two leaves of a fresh tree are new, so nothing from before belongs to it. -/
theorem Fresh.secludes (fresh : Fresh base tree pages) :
    Secludes base pages tree (Outline.empty tree.anchor) where
  others := fresh.others
  beyond := by
    intro role index belongs
    cases belongs with
    | node member => contradiction
    | leaf member =>
        rw [List.mem_singleton.mp member]
        exact fresh.root_new
    | next member =>
        rw [List.mem_singleton.mp member]
        exact fresh.root_new
    | sentinel => exact fresh.sentinel_new
    | part inSheets member _ =>
        rw [List.mem_singleton.mp inSheets] at member
        contradiction

/-- A fresh tree finds no key, passes no entry and spares the pages from before. -/
theorem Fresh.usable {config : Config} (fresh : Fresh base tree session.pages)
    (anchorIndex_eq : tree.anchorIndex = index) (config_eq : tree.config = config)
    (calm : session.Calm) : Usable base index config tree session where
  anchorIndex_eq := anchorIndex_eq
  config_eq := config_eq
  fresh := fresh
  get? key := by
    have keeps : Keeps 255 session.pages tree _ .empty := fresh.keeps
    exact (keeps.get?_consults key).gives calm
  entries most := by
    have keeps : Keeps 255 session.pages tree _ .empty := fresh.keeps
    have passed := keeps.retains.entries_consults (σ := σ) most
    have none : (Outline.empty tree.anchor).entries .empty = [] := rfl
    rw [none, List.take_nil] at passed
    exact passed.gives calm
  spares := Tree.Beside.alwaysSpares ⟨⟨_, _, fresh.keeps, fresh.secludes⟩, anchorIndex_eq⟩

/-- Where a tree can be made, a calm pager with some room makes one. -/
theorem Creatable.opens (creatable : Creatable session.pages index) (config : Config)
    (calm : session.Calm) (room : session.pages.length + 2 < Word.signedLimit) :
    ∃ tree after, Tree.openOrCreate index config session = .ok tree after ∧
      Usable session.pages index config tree after := by
  have opens := Tree.openOrCreate_ends config creatable
  rcases opens.exists_ok (fun _ _ unopened => by have := unopened.crowded calm; omega) with
    ⟨tree, after, given, opened⟩
  exact ⟨tree, after, given,
    opened.fresh.usable opened.anchorIndex_eq opened.config_eq (opened.grows.calm calm)⟩

/-- A fresh tree is opened again as it is. -/
theorem Fresh.reopens (fresh : Fresh base tree session.pages)
    (anchorIndex_eq : tree.anchorIndex = index) (config : Config) (calm : session.Calm) :
    ∃ tree after, Tree.openOrCreate index config session = .ok tree after ∧
      Usable base index config tree after := by
  have anchored := fresh.anchored
  rw [anchorIndex_eq] at anchored
  have opens := Tree.openOrCreate_consults (σ := σ) anchored config session rfl
  rcases opens.exists_ok (fun _ _ denied => denied.stormy calm) with ⟨_, after, given, rfl, still⟩
  refine ⟨_, after, given, ?_⟩
  rw [← anchorIndex_eq]
  rw [← still.pages_eq] at fresh
  have freshLater : Fresh base { tree with config } after.pages := { fresh with }
  exact freshLater.usable rfl rfl (still.calm calm)

theorem Fresh.ne_placeholder (fresh : Fresh base tree pages) :
    fetch pages tree.anchorIndex ≠ some Anchor.placeholder.toPage := by
  intro stored
  rw [fresh.anchored] at stored
  injection stored with samePage
  apply fresh.apart
  rw [Anchor.toPage_inj samePage]
  rfl

/-! ## When only the place of the anchor is held -/

theorem Tree.descendFrom_astray {anchor : Anchor}
    (fetched : fetch session.pages index = some anchor.toPage) (calm : session.Calm)
    (choose : Node → Except Fault Int) (limit : Nat) (path : List Step) :
    ∃ after, Tree.descendFrom choose (limit + 1) index path session =
      .error (.error (.unexpectedPage index Kind.anchor.byte)) after := by
  have viewed : anchor.toPage.view = .ok (.anchor anchor.toPage) := by
    simp only [Page.view, Anchor.kind?_toPage]
  have reads := Consults.readView (σ := σ) fetched viewed session rfl
  rcases reads.exists_ok (fun _ _ denied => denied.stormy calm) with ⟨_, after, given, rfl, _⟩
  exact ⟨after, bind_eq_of_ok given _⟩

theorem Tree.get?_astray {anchor : Anchor}
    (rooted : fetch session.pages tree.anchor.root = some anchor.toPage) (calm : session.Calm)
    (key : Bytes) :
    ∃ after, tree.get? key session =
      .error (.error (.unexpectedPage tree.anchor.root Kind.anchor.byte)) after := by
  have positive : walkLimit = (walkLimit - 1) + 1 := by decide
  rcases Tree.descendFrom_astray rooted calm (fun node => node.route key) (walkLimit - 1) [] with
    ⟨after, fails⟩
  rw [← positive] at fails
  exact ⟨after, bind_eq_of_error fails _⟩

/-- A place where a tree can be made holds no anchor yet. -/
theorem Creatable.not_anchored (creatable : Creatable base index) (anchor : Anchor) :
    fetch base index ≠ some anchor.toPage := by
  intro anchored
  rcases creatable with isEnd | ⟨page, fetched, isBlank⟩
  · have position_eq := PageList.position_eq anchored
    rw [isEnd] at position_eq
    injection position_eq with length_eq
    have := PageList.position_lt anchored
    omega
  · rw [anchored] at fetched
    injection fetched with same
    rw [← same, Anchor.kind?_toPage] at isBlank
    contradiction

/-- A failed attempt leaves only the place of the anchor just if the place had been taken and then a
page could not be appended or the anchor not be written. -/
theorem placeholder_left_iff {config : Config} {failure : Failure TreeError} {after : Session σ}
    (creatable : Creatable session.pages index)
    (fails : Tree.openOrCreate index config session = .error failure after) :
    fetch after.pages index = some Anchor.placeholder.toPage ↔
      ∃ held, fetch held.pages index = some Anchor.placeholder.toPage ∧
        ((∃ page, TreeM.appendPage page held = .error failure after) ∨
          ∃ anchor : Anchor, TreeM.writePage anchor.toPage index held = .error failure after) := by
  constructor
  · intro stored
    have breaks := ((Tree.openOrCreate_ends config creatable).of_error fails).breaks
    have something : after.pages ≠ session.pages :=
      fun nothing => creatable.not_anchored _ (nothing ▸ stored)
    cases breaks with
    | counting _ _ nothing => exact absurd nothing something
    | looking _ _ nothing => exact absurd nothing something
    | placing _ _ nothing => exact absurd nothing something
    | appending placed appendFails _ _ => exact ⟨_, placed, Or.inl ⟨_, appendFails⟩⟩
    | anchoring placed writeFails _ _ => exact ⟨_, placed, Or.inr ⟨_, writeFails⟩⟩
    | syncing _ fresh anchorIndex_eq => exact absurd (anchorIndex_eq ▸ stored) fresh.ne_placeholder
  · rintro ⟨held, placed, ⟨page, appendFails⟩ | ⟨anchor, writeFails⟩⟩
    · have rejected := (append_page_ends page held).of_error appendFails
      exact includes_of_longer rejected.longer _ _ placed
    · have denied := (TreeM.writePage_ends placed anchor.toPage).of_error writeFails
      rw [denied.still.pages_eq]
      exact placed

/-- Unless a tree is made where the pages begin, there is a page with index zero. -/
theorem Creatable.exists_first (creatable : Creatable base index) (nonzero : index ≠ 0) :
    ∃ page, fetch base 0 = some page := by
  have nonempty : 0 < base.length := by
    apply Nat.pos_of_ne_zero
    intro isEmpty
    rcases creatable with isEnd | ⟨page, fetched, _⟩
    · simp only [PageIndex.position] at isEnd
      split at isEnd
      · contradiction
      · injection isEnd with position_eq
        apply nonzero
        apply Int64.toInt_inj.mp
        rw [Int64.toInt_zero]
        omega
    · have := PageList.position_lt fetched
      omega
  exact ⟨base[0], PageList.fetch_eq_some.mpr ⟨by decide, List.getElem?_eq_getElem nonempty⟩⟩

/-- An anchor page that holds the place of an anchor is taken for one of a tree. The root is page
zero then: the anchor page itself, where every lookup fails, or a page from before. -/
theorem placeholder_opens (creatable : Creatable base index)
    (stored : fetch session.pages index = some Anchor.placeholder.toPage) (calm : session.Calm)
    (config : Config) :
    ∃ tree after, Tree.openOrCreate index config session = .ok tree after ∧
      tree.anchor = Anchor.placeholder ∧
      (index = 0 → ∀ key, ∃ last,
        tree.get? key after = .error (.error (.unexpectedPage 0 Kind.anchor.byte)) last) ∧
      (index ≠ 0 → ∃ page, fetch base 0 = some page) := by
  have opens := Tree.openOrCreate_consults (σ := σ) stored config session rfl
  rcases opens.exists_ok (fun _ _ denied => denied.stormy calm) with ⟨_, after, given, rfl, still⟩
  refine ⟨_, after, given, rfl, ?_, creatable.exists_first⟩
  rintro rfl key
  rw [← still.pages_eq] at stored
  let astray : Tree := ⟨0, Anchor.placeholder, config⟩
  have rooted : fetch after.pages astray.anchor.root = some Anchor.placeholder.toPage := stored
  exact Tree.get?_astray rooted (still.calm calm) key

theorem Usable.anchor_ne_placeholder {config : Config}
    (usable : Usable base index config tree session) : tree.anchor ≠ Anchor.placeholder := by
  intro isPlaceholder
  apply usable.fresh.ne_placeholder
  rw [usable.fresh.anchored, isPlaceholder]

/-- After failed attempts to make a tree, opening it gives a tree as soon as the pager does not
fail. The tree is usable unless only the place of its anchor is held. -/
theorem creation_recovers (creatable : Creatable base index)
    (attempted : Attempted σ index base pages) (config : Config) (same : session.pages = pages)
    (calm : session.Calm) (room : pages.length + 2 < Word.signedLimit) :
    ∃ tree after, Tree.openOrCreate index config session = .ok tree after ∧
      (Usable base index config tree after ↔
        fetch pages index ≠ some Anchor.placeholder.toPage) := by
  have leftover := attempted.leftover creatable
  subst same
  cases leftover with
  | nothing isBase =>
      rw [← isBase] at creatable ⊢
      rcases creatable.opens config calm room with ⟨tree, after, given, usable⟩
      exact ⟨tree, after, given, fun _ => creatable.not_anchored _, fun _ => usable⟩
  | placeholder stored _ =>
      rcases placeholder_opens creatable stored calm config with ⟨tree, after, given, same, _⟩
      exact ⟨tree, after, given, fun usable => absurd same usable.anchor_ne_placeholder,
        absurd stored⟩
  | finished fresh anchorIndex_eq =>
      rcases fresh.reopens anchorIndex_eq config calm with ⟨tree, after, given, usable⟩
      refine ⟨tree, after, given, fun _ => ?_, fun _ => usable⟩
      rw [← anchorIndex_eq]
      exact fresh.ne_placeholder

/-- A pager around an empty memory on which no call fails but the one that makes pages durable. -/
def neverSynced : Faulty Memory :=
  (Faulty.wrap ⟨[]⟩ 0).setRates { FaultRates.none with sync := ⟨1, 0⟩ }

/-- A pager around an empty memory on which the second write fails. -/
def secondWriteFails : Faulty Memory := (Faulty.wrap ⟨[]⟩ 0).failWriteAfter 1

/-- If a tree is not made durable, it can be used nevertheless when it is opened again. -/
theorem creation_recovers_unsynced :
    ∃ (failure : Failure TreeError) (after last : Session (Faulty Memory)) (tree : Tree),
      Tree.openOrCreate 0 .default ⟨neverSynced, []⟩ = .error failure after ∧
      Tree.openOrCreate 0 .default ⟨after.device.clearFaults, after.log⟩ = .ok tree last ∧
      Usable [] 0 .default tree last := by
  have runs : Ends (Tree.openOrCreate 0 .default (⟨neverSynced, []⟩ : Session (Faulty Memory)))
      (fun _ _ => False) (fun _ after => after.device.inner.pages.length = 3 ∧
        fetch after.device.inner.pages 0 ≠ some Anchor.placeholder.toPage) := by
    decide +kernel
  rcases runs.exists_error (fun _ _ => id) with ⟨failure, after, fails, length_eq, finished⟩
  have creatable : Creatable [] 0 := Or.inl rfl
  have attempted : Attempted (Faulty Memory) 0 [] after.pages := .again .never rfl fails
  let cleared : Session (Faulty Memory) := ⟨after.device.clearFaults, after.log⟩
  have calm : cleared.Calm := ⟨rfl, rfl, rfl, rfl, trivial⟩
  have room : after.pages.length + 2 < Word.signedLimit := by
    change after.device.inner.pages.length + 2 < _
    rw [length_eq]
    decide
  have same : cleared.pages = after.pages := rfl
  rcases creation_recovers creatable attempted .default same calm room with
    ⟨tree, last, opens, usable⟩
  exact ⟨failure, after, last, tree, fails, opens, usable.mpr finished⟩

/-- If a tree is not made because its second write fails, what is opened later on a calm pager is
not usable. -/
theorem creation_unusable :
    ∃ (failure : Failure TreeError) (after last : Session (Faulty Memory)) (tree : Tree),
      Creatable [] 0 ∧ Tree.openOrCreate 0 .default ⟨secondWriteFails, []⟩ = .error failure after ∧
      after.Calm ∧ Tree.openOrCreate 0 .default after = .ok tree last ∧
      tree.anchor = ⟨0, 0, 0⟩ ∧
      (∃ other, tree.get? [97] last = .error (.error (.unexpectedPage 0 1)) other) ∧
      ¬ Usable [] 0 .default tree last := by
  have runs : Ends (Tree.openOrCreate 0 .default (⟨secondWriteFails, []⟩ : Session (Faulty Memory)))
      (fun _ _ => False)
      (fun _ after => after.device.rates = FaultRates.none ∧ after.device.writesLeft = none ∧
        Ends (Tree.openOrCreate 0 .default after)
          (fun tree last => tree.anchor = ⟨0, 0, 0⟩ ∧ Ends (tree.get? [97] last) (fun _ _ => False)
            (fun failure _ => failure = .error (.unexpectedPage 0 1)))
          (fun _ _ => False)) := by
    decide +kernel
  rcases runs.exists_error (fun _ _ => id) with ⟨failure, after, fails, rates_eq, none_left, opens⟩
  rcases opens.exists_ok (fun _ _ => id) with ⟨tree, last, given, anchor_eq, looks⟩
  rcases looks.exists_error (fun _ _ => id) with ⟨_, other, refused, rfl⟩
  have calm : after.Calm := by
    refine ⟨?_, ?_, ?_, none_left, trivial⟩
    all_goals
      rw [rates_eq]
      rfl
  refine ⟨failure, after, last, tree, Or.inl rfl, fails, calm, given, anchor_eq,
    ⟨other, refused⟩, ?_⟩
  intro usable
  rcases usable.get? [97] with ⟨_, found, _⟩
  rw [refused] at found
  contradiction

end PagedMap
