import PagedMap.Proofs.Tree.Owning
import PagedMap.Proofs.Tree.Ways

/-!
# Accounts of pages

All pages beside a tree are accounted for if each has a place in the tree, or is known to have been
appended to store a value or as a copy. Operations keep it so: whatever has a place keeps it, and
what is appended gets a place or is accounted for otherwise. The one record that is written has a
chain of new pages, so that no two records share a page.
-/

namespace PagedMap

open PageList (fetch)

/-- A leaf to which a way leads from the root holds a record. -/
structure Live (pages : List Page) (root index : PageIndex) (record : Record) : Prop where
  reached : ∃ path, Way pages root path index
  stored : ∃ (leaf : Leaf) (entries : List Record), fetch pages index = some leaf.toPage ∧
    leaf.entries = .ok entries ∧ record ∈ entries

/-- A page is a copy: one that was there already, or one among shadows. -/
def Copied (archived : PageIndex → Prop) (shadows : Shadows) (index : PageIndex) : Prop :=
  archived index ∨ ∃ shadow ∈ shadows, shadow.copy = index

theorem copied_nil (archived : PageIndex → Prop) : Copied archived [] = archived := by
  funext index
  simp [Copied]

section

variable {σ : Type} [Pager σ] [AtomicPager σ]

/-- Encoding a value appends a page, when the value is inserted. -/
structure Spills (tree : Tree) (key value : Bytes) (before after : Session σ)
    (index : PageIndex) : Prop where
  isNew : fetch before.pages index = none
  lasts : ∃ page, fetch after.pages index = some page
  encoded : ∃ found encoded middle page,
    Transaction.Readies tree key value before found encoded middle ∧
      fetch middle.pages index = some page

theorem not_spills {tree : Tree} {key value : Bytes} {session : Session σ} {index : PageIndex} :
    ¬ Spills tree key value session session index := by
  rintro ⟨missing, ⟨page, fetched⟩, _⟩
  exact PageList.ne_of_fetch fetched missing rfl

end

/-! ## Live records -/

section

variable {limit : Nat} {pages later : List Page} {tree grown : Tree} {outline wider : Outline}
  {contents : Contents} {index root : PageIndex} {record : Record}

theorem Ordered.eq_of_record {sheets : List Sheet} {left right : Sheet} (ordered : Ordered sheets)
    (inSheets : left ∈ sheets) (otherInSheets : right ∈ sheets) (inLeft : record ∈ left.records)
    (inRight : record ∈ right.records) : left = right := by
  have noneShared : sheets.Pairwise fun left right =>
      record ∈ left.records → record ∉ right.records := by
    apply (List.pairwise_flatMap.mp ordered.ascending).2.imp
    intro left right lesser inLeft inRight
    exact List.lt_irrefl _ (lesser record inLeft record inRight)
  exact eq_of_pairwise noneShared inSheets otherInSheets inLeft inRight

namespace Keeps

/-- A record that is live is stored in a leaf of the outline. -/
theorem sheet_of_live (keeps : Keeps limit pages tree outline contents)
    (live : Live pages tree.anchor.root index record) :
    ∃ sheet ∈ outline.sheets, sheet.index = index ∧ record ∈ sheet.records := by
  rcases live with ⟨reached, leaf, entries, fetched, entries_eq, member⟩
  cases keeps.way_iff.mp reached with
  | node inLevels =>
      rcases keeps.scaffold.stored _ inLevels with ⟨node, nodeFetched, _⟩
      exact absurd rfl
        (ne_of_kind fetched leaf.kind?_toPage nodeFetched node.kind?_toPage (by decide))
  | @leaf sheet inSheets =>
      rcases keeps.shelf.stored sheet inSheets with ⟨other, otherFetched, _, holds⟩
      rw [fetched] at otherFetched
      injection otherFetched with same
      rw [Leaf.toPage_inj same, holds.entries_eq] at entries_eq
      injection entries_eq with same
      rw [← same] at member
      exact ⟨sheet, inSheets, rfl, member⟩

end Keeps

/-! ## Accounts of pages -/

/-- All pages beside a tree are accounted for: those that were appended to store values are overflow
pages, the copies have no place in the tree, and everything else has one. -/
structure Accounts (spilled copied : PageIndex → Prop) (pages : List Page) (tree : Tree)
    (outline : Outline) : Prop where
  covered : ∀ index page, fetch pages index = some page →
    index = tree.anchorIndex ∨ index = tree.anchor.sentinel ∨
      Belongs pages tree.anchor.sentinel outline .child index ∨ spilled index ∨ copied index
  parts : ∀ index, spilled index →
    ∃ overflow : Overflow, fetch pages index = some overflow.toPage
  present : ∀ index, copied index → ∃ page, fetch pages index = some page
  notAnchor : ∀ index, copied index → index ≠ tree.anchorIndex
  notSpilled : ∀ index, copied index → ¬ spilled index
  noPlace : ∀ index, copied index →
    ∀ role, ¬ Belongs pages tree.anchor.sentinel outline role index
  alone : ∀ record ∈ outline.sheets.flatMap Sheet.records,
    ∀ other ∈ outline.sheets.flatMap Sheet.records, ∀ index,
      Value.Spans pages record.2 index → Value.Spans pages other.2 index → record = other

/-- An operation on a tree: what has a place keeps it, what is appended gets a place or is accounted
for, and of the records at most one is new, with a chain of new pages. -/
structure Adjusts (spilled copied spilledLater copiedLater : PageIndex → Prop)
    (pages later : List Page) (tree grown : Tree) (outline wider : Outline) : Prop where
  anchorIndex_eq : grown.anchorIndex = tree.anchorIndex
  sentinel_eq : grown.anchor.sentinel = tree.anchor.sentinel
  longer : pages.length ≤ later.length
  overflowsKept : Value.KeepsOverflows pages later
  retained : ∀ index, Belongs pages tree.anchor.sentinel outline .child index →
    Belongs later grown.anchor.sentinel wider .child index
  inherited : ∀ role index, Belongs later grown.anchor.sentinel wider role index →
    Belongs pages tree.anchor.sentinel outline role index ∨ fetch pages index = none
  spilledStill : ∀ index, spilled index → spilledLater index
  copiedStill : ∀ index, copied index → copiedLater index
  adds : AddsOnly (fun index => Belongs later grown.anchor.sentinel wider .child index ∨
    spilledLater index ∨ copiedLater index) pages later
  spills : ∀ index, spilledLater index → spilled index ∨
    fetch pages index = none ∧ ∃ overflow : Overflow, fetch later index = some overflow.toPage
  copies : ∀ index, copiedLater index → copied index ∨
    fetch pages index = none ∧ (∃ page, fetch later index = some page) ∧ ¬ spilledLater index ∧
      ∀ role, ¬ Belongs later grown.anchor.sentinel wider role index
  records : ∃ fresh, ∀ record ∈ wider.sheets.flatMap Sheet.records,
    record ∈ outline.sheets.flatMap Sheet.records ∨
      record = fresh ∧ ∀ index, Value.Spans later record.2 index → fetch pages index = none

namespace Accounts

variable {spilled copied spilledLater copiedLater : PageIndex → Prop}

theorem not_spilled (accounts : Accounts spilled copied pages tree outline)
    (missing : fetch pages index = none) : ¬ spilled index := by
  intro isSpilled
  rcases accounts.parts index isSpilled with ⟨overflow, fetched⟩
  exact PageList.ne_of_fetch fetched missing rfl

theorem not_copied (accounts : Accounts spilled copied pages tree outline)
    (missing : fetch pages index = none) : ¬ copied index := by
  intro isCopied
  rcases accounts.present index isCopied with ⟨page, fetched⟩
  exact PageList.ne_of_fetch fetched missing rfl

/-- Records that were there have the same chains, and the one that is new has only new pages on its
chain. -/
theorem alone_adjust (accounts : Accounts spilled copied pages tree outline)
    (keeps : Keeps limit pages tree outline contents)
    (adjusts : Adjusts spilled copied spilledLater copiedLater pages later tree grown outline
      wider) {other : Record} (member : record ∈ wider.sheets.flatMap Sheet.records)
    (otherMember : other ∈ wider.sheets.flatMap Sheet.records)
    (spans : Value.Spans later record.2 index) (otherSpans : Value.Spans later other.2 index) :
    record = other := by
  rcases adjusts.records with ⟨fresh, origin⟩
  have spansBefore : ∀ old ∈ outline.sheets.flatMap Sheet.records,
      Value.Spans later old.2 index → Value.Spans pages old.2 index ∧
        ∃ page, fetch pages index = some page := by
    intro old oldMember oldSpans
    rcases keeps.means.decoded old oldMember with ⟨value, _, decodes⟩
    have before := decodes.spans_of_keep adjusts.overflowsKept oldSpans
    rcases decodes.of_spans before with ⟨overflow, fetched, _⟩
    exact ⟨before, _, fetched⟩
  -- Two old records would have shared the page before, and a new chain has no old page on it.
  rcases origin record member with isOld | ⟨rfl, isNew⟩
  · rcases spansBefore record isOld spans with ⟨before, page, fetched⟩
    rcases origin other otherMember with otherIsOld | ⟨_, otherIsNew⟩
    · exact accounts.alone record isOld other otherIsOld index before
        (spansBefore other otherIsOld otherSpans).1
    · exact absurd rfl (PageList.ne_of_fetch fetched (otherIsNew index otherSpans))
  · rcases origin other otherMember with otherIsOld | ⟨same, _⟩
    · rcases spansBefore other otherIsOld otherSpans with ⟨_, page, fetched⟩
      exact absurd rfl (PageList.ne_of_fetch fetched (isNew index spans))
    · exact same.symm

/-- The account of a tree is adjusted when what is new among the pages is told by purpose. -/
theorem adjust (accounts : Accounts spilled copied pages tree outline)
    (keeps : Keeps limit pages tree outline contents)
    (adjusts : Adjusts spilled copied spilledLater copiedLater pages later tree grown outline
      wider) : Accounts spilledLater copiedLater later grown wider where
  covered := by
    intro index page fetched
    -- A page is new, or it keeps the purpose that it had.
    cases before : fetch pages index with
    | none => exact Or.inr (Or.inr (adjusts.adds index page before fetched))
    | some old =>
        rw [adjusts.anchorIndex_eq]
        rcases accounts.covered index old before with
          isAnchor | isSentinel | belongs | isSpilled | isCopied
        · exact Or.inl isAnchor
        · exact Or.inr (Or.inl (isSentinel.trans adjusts.sentinel_eq.symm))
        · exact Or.inr (Or.inr (Or.inl (adjusts.retained index belongs)))
        · exact Or.inr (Or.inr (Or.inr (Or.inl (adjusts.spilledStill index isSpilled))))
        · exact Or.inr (Or.inr (Or.inr (Or.inr (adjusts.copiedStill index isCopied))))
  parts := by
    intro index isSpilled
    rcases adjusts.spills index isSpilled with before | ⟨_, isNew⟩
    · rcases accounts.parts index before with ⟨overflow, fetched⟩
      exact ⟨overflow, adjusts.overflowsKept index overflow fetched⟩
    · exact isNew
  present := by
    intro index isCopied
    rcases adjusts.copies index isCopied with before | ⟨_, fetched, _⟩
    · rcases accounts.present index before with ⟨page, fetched⟩
      exact exists_fetch_of_length_le adjusts.longer fetched
    · exact fetched
  notAnchor := by
    intro index isCopied
    rw [adjusts.anchorIndex_eq]
    rcases adjusts.copies index isCopied with before | ⟨missing, _⟩
    · exact accounts.notAnchor index before
    · exact (PageList.ne_of_fetch keeps.anchored missing).symm
  notSpilled := by
    intro index isCopied isSpilled
    rcases adjusts.copies index isCopied with before | ⟨_, _, notSpilled, _⟩
    · rcases adjusts.spills index isSpilled with spilledBefore | ⟨missing, _⟩
      · exact accounts.notSpilled index before spilledBefore
      · exact accounts.not_copied missing before
    · exact notSpilled isSpilled
  noPlace := by
    intro index isCopied role belongs
    rcases adjusts.copies index isCopied with before | ⟨_, _, _, noPlace⟩
    · rcases adjusts.inherited role index belongs with belongsBefore | missing
      · exact accounts.noPlace index before role belongsBefore
      · exact accounts.not_copied missing before
    · exact noPlace role belongs
  alone _ member _ otherMember _ := accounts.alone_adjust keeps adjusts member otherMember

end Accounts

end

namespace Transaction

variable {σ : Type} [Pager σ] [AtomicPager σ] {base : List Page} {limit : Nat}
  {outline : Outline} {contents : Contents} {key value : Bytes}
  {before after : Holding Transaction σ} {spilled archived : PageIndex → Prop}

theorem Prepared.exists_overflow {start : Holding Transaction σ} {encoded : Bytes}
    {index : PageIndex} {page : Page}
    (prepared : Prepared base limit outline contents key encoded value start before)
    (missing : fetch start.session.pages index = none)
    (fetched : fetch before.session.pages index = some page) :
    ∃ overflow : Overflow, fetch before.session.pages index = some overflow.toPage := by
  rcases prepared.parts with ⟨parts, pages_eq⟩
  have appended := fetched
  rw [pages_eq] at appended
  rcases List.mem_map.mp (PageList.mem_of_append missing appended) with ⟨overflow, _, rfl⟩
  exact ⟨overflow, fetched⟩

/-- Inserting gives every page that is appended a purpose. -/
theorem Entered.adjusts (entered : Entered base limit outline contents key value before after)
    (accounts : Accounts spilled (Copied archived before.held.shadows) before.session.pages
      before.held.tree outline) :
    ∃ later, Maintains base limit later (contents.insert key value) after ∧
      Adjusts spilled (Copied archived before.held.shadows)
        (fun index => spilled index ∨
          Spills before.held.tree key value before.session after.session index)
        (Copied archived after.held.shadows) before.session.pages after.session.pages
        before.held.tree after.held.tree outline later := by
  rcases entered with ⟨continues, found, encoded, middle, later, readies, placed⟩
  have prepared := placed.prepared
  have spilledIn : ∀ index,
      Spills before.held.tree key value before.session after.session index →
      ∃ page, fetch middle.pages index = some page := by
    rintro index ⟨_, _, _, _, _, page, otherwise, fetched⟩
    rw [readies.unique otherwise] at fetched
    exact ⟨page, fetched⟩
  refine ⟨later, placed.maintains, {
    anchorIndex_eq := continues.advances.anchorIndex_eq
    sentinel_eq := continues.sentinel_eq
    longer := continues.advances.longer
    overflowsKept := fun index overflow fetched =>
      placed.overflows_kept index overflow (prepared.advances.kept index _ id fetched)
    retained := placed.retained
    inherited := placed.inherits
    spilledStill := fun _ => Or.inl
    copiedStill := fun _ => Or.imp_right fun ⟨shadow, member, same⟩ =>
      ⟨shadow, continues.advances.shadowed shadow member, same⟩
    adds := ?_
    spills := ?_
    copies := ?_
    records := ⟨(key, encoded), ?_⟩ }⟩
  · -- A new page was appended for the value, or afterwards for the leaves and nodes.
    intro index page missing fetched
    cases isMiddle : fetch middle.pages index with
    | none =>
        rcases placed.adds index page isMiddle fetched with belongs | isCopy
        · exact Or.inl belongs
        · exact Or.inr (Or.inr (Or.inr isCopy))
    | some old =>
        exact Or.inr (Or.inl (Or.inr
          ⟨missing, ⟨page, fetched⟩, found, encoded, middle, old, readies, isMiddle⟩))
  · intro index isSpilled
    apply isSpilled.imp_right
    intro spills
    rcases spilledIn index spills with ⟨page, fetched⟩
    rcases prepared.exists_overflow spills.isNew fetched with ⟨overflow, isOverflow⟩
    exact ⟨spills.isNew, overflow, placed.overflows_kept index overflow isOverflow⟩
  · rintro index (isArchived | ⟨shadow, member, rfl⟩)
    · exact Or.inl (Or.inl isArchived)
    · rcases placed.copies shadow member with earlier | notInMiddle
      · exact Or.inl (Or.inr ⟨shadow, earlier, rfl⟩)
      · -- A new copy is on no chain and has no place in the tree.
        have missing := PageList.fetch_none_of_le prepared.advances.longer notInMiddle
        rcases placed.maintains.undoable.copied shadow member with ⟨page, _, copied⟩
        refine Or.inr ⟨missing, ⟨page, copied⟩, ?_, ?_⟩
        · rintro (isSpilled | spills)
          · exact accounts.not_spilled missing isSpilled
          · rcases spilledIn _ spills with ⟨page, fetched⟩
            exact PageList.ne_of_fetch fetched notInMiddle rfl
        · exact fun role belongs => placed.maintains.own role _ belongs shadow member rfl
  · intro record member
    rcases placed.records record member with rfl | isOld
    · refine Or.inr ⟨rfl, fun index spans => prepared.isNew index ?_⟩
      exact prepared.decodes.spans_of_keep placed.overflows_kept spans
    · exact Or.inl isOld

/-- With a commit at most a copy of the anchor page is added. -/
theorem Committed.adjusts (committed : Committed limit outline contents before after)
    (keeps : Keeps limit before.session.pages before.held.tree outline contents)
    (accounts : Accounts spilled (Copied archived before.held.shadows) before.session.pages
      before.held.tree outline) :
    Adjusts spilled (Copied archived before.held.shadows) spilled
      (Copied archived after.held.shadows) before.session.pages after.session.pages
      before.held.tree after.held.tree outline outline := by
  have overflowsKept := keeps.overflows_kept committed.others
  have inherited : ∀ role index,
      Belongs after.session.pages after.held.tree.anchor.sentinel outline role index →
      Belongs before.session.pages before.held.tree.anchor.sentinel outline role index := by
    intro role index belongs
    rw [committed.sentinel_eq] at belongs
    exact belongs.of_keep keeps.means overflowsKept
  exact {
    anchorIndex_eq := committed.anchorIndex_eq
    sentinel_eq := committed.sentinel_eq
    longer := committed.longer
    overflowsKept
    retained := by
      intro index belongs
      cases belongs with
      | node member => exact .node member
      | leaf member => exact .leaf member
    inherited := fun role index belongs => Or.inl (inherited role index belongs)
    spilledStill := fun _ => id
    copiedStill := fun _ => Or.imp_right fun ⟨shadow, member, same⟩ =>
      ⟨shadow, committed.shadowed shadow member, same⟩
    adds := by
      intro index page missing fetched
      rcases committed.adds index page missing fetched with none | isCopy
      · exact none.elim
      · exact Or.inr (Or.inr (Or.inr isCopy))
    spills := fun _ => Or.inl
    copies := by
      rintro index (isArchived | ⟨shadow, member, rfl⟩)
      · exact Or.inl (Or.inl isArchived)
      · rcases committed.copies shadow member with earlier | missing
        · exact Or.inl (Or.inr ⟨shadow, earlier, rfl⟩)
        · refine Or.inr
            ⟨missing, committed.copied shadow member, accounts.not_spilled missing, ?_⟩
          intro role belongs
          rcases keeps.retains.exists_fetch (inherited role _ belongs) with ⟨page, fetched⟩
          exact PageList.ne_of_fetch fetched missing rfl
    records := ⟨([], []), fun _ => Or.inl⟩ }

/-- An attempt to insert succeeds if the key is inserted, or if it is too long. -/
theorem attemptInsert_ends (maintains : Maintains base limit outline contents before)
    (active : before.held.phase = .active) (bounded : limit ≤ 255)
    (roomy : before.held.tree.config.maxEntries ≤ limit) (key : Bytes) (value : Addressable) :
    Ends (attempt (.insert key value) before)
      (fun _ after => after = before ∨
        Entered base limit outline contents key value.val before after)
      (fun _ _ => True) := by
  apply attempt_ends
  by_cases short : key.length ≤ maxKeySize
  · apply Ends.mono (insert_ends maintains active bounded roomy short value.2)
    · exact fun _ _ => Or.inr
    · rintro failure after ⟨⟨cause, rfl⟩, middle, _, givenUp, _⟩
      exact ⟨⟨_, rfl⟩, Or.inr ⟨givenUp.aborted.ended, trivial⟩⟩
  · change Ends (insert key value.val before) _ _
    rw [insert_eq_of_long active (Nat.lt_of_not_le short) value.val]
    exact ⟨⟨_, rfl⟩, Or.inl ⟨active, Or.inl rfl⟩⟩

end Transaction

end PagedMap
