import PagedMap.Tree.Value
import PagedMap.Proofs.Page.Overflows
import PagedMap.Proofs.Tree.Consulting

/-!
# Stored values are read back

An encoded value either stands for itself or leads to a chain of overflow pages. Every page of a
chain links to an earlier one, so that a chain has fewer pages than there are in front of its first
one, and the limit on reading it is never reached. Encoding a value appends the pages of its chain,
the last one first.
-/

namespace PagedMap

/-! ## Appending pages -/

namespace Session

variable {σ : Type} [Pager σ] [AtomicPager σ]

/-- What an operation that only appends pages leaves behind. -/
structure Appended (before after : Session σ) : Prop where
  longer : before.pages <+: after.pages
  calm : before.Calm → after.Calm

/-- Appending fails if the pager does. A calm one does only when there are no more page indices. -/
structure Unappended (before : Session σ) (failure : Failure PagerError) (after : Session σ) :
    Prop where
  byPager : ∃ error, failure = .error error
  appended : Appended before after
  full : before.Calm → Word.signedLimit ≤ after.pages.length

theorem Appended.trans {before middle after : Session σ} (first : Appended before middle)
    (second : Appended middle after) : Appended before after :=
  ⟨first.longer.trans second.longer, fun calm => second.calm (first.calm calm)⟩

theorem Appended.unappended {before middle after : Session σ} {failure : Failure PagerError}
    (first : Appended before middle) (fails : Unappended middle failure after) :
    Unappended before failure after :=
  ⟨fails.byPager, first.trans fails.appended, fun calm => fails.full (first.calm calm)⟩

end Session

/-- So many pages can be appended one after the other, whatever they contain. -/
def Accepts {σ : Type} [Pager σ] : Nat → σ → Prop
  | 0, _ => True
  | more + 1, state => ∀ page, ∃ index after,
    Pager.appendPage page state = .ok index after ∧ Accepts more after

/-- A calm pager accepts as many pages as there are indices left. -/
theorem accepts_of_calm {σ : Type} [Pager σ] [AtomicPager σ] {state : σ}
    (calm : AtomicPager.Calm state) (amount : Nat)
    (room : (AtomicPager.pages state).length + amount ≤ Word.signedLimit) :
    Accepts amount state := by
  induction amount generalizing state with
  | zero => trivial
  | succ more ih =>
      intro page
      have appends := AtomicPager.appendPage_ends page state
      rcases appends.exists_ok (fun _ _ fails => by have := (fails.2 calm).2; omega) with
        ⟨index, after, appended, _, _, pages_eq, stillCalm⟩
      refine ⟨index, after, appended, ih (stillCalm calm) ?_⟩
      simp [pages_eq]
      omega

namespace Value

open PageList (fetch nextIndex)
open Session (Appended Unappended)

variable {σ : Type} [Pager σ] [AtomicPager σ] {pages later : List Page} {index : PageIndex}
  {data rest value encoded : Bytes}

/-- A chain of overflow pages with the bytes that they store. -/
inductive Chain (pages : List Page) : PageIndex → Bytes → Prop
  | done : Chain pages 0 []
  | part {index : PageIndex} {overflow : Overflow} {data rest : Bytes}
      (fetched : fetch pages index = some overflow.toPage)
      (earlier : overflow.next.toInt < index.toInt) (stored : overflow.data = .ok data)
      (follows : Chain pages overflow.next rest) : Chain pages index (data ++ rest)

/-- What an encoded value stands for. -/
inductive Decodes (pages : List Page) : Bytes → Bytes → Prop
  | whole (value : Bytes) : Decodes pages (fullTag :: value) value
  | spilled {head : PageIndex} {rest : Bytes} (inline : Bytes) (chain : Chain pages head rest) :
      Decodes pages (partialTag :: (Bytes.ofIndex head ++ inline)) (inline ++ rest)

/-- Every overflow page of a list is in the other one too. -/
def KeepsOverflows (pages later : List Page) : Prop :=
  ∀ index (overflow : Overflow), fetch pages index = some overflow.toPage →
    fetch later index = some overflow.toPage

theorem Chain.keep (chain : Chain pages index rest) (keeps : KeepsOverflows pages later) :
    Chain later index rest := by
  induction chain with
  | done => exact Chain.done
  | part fetched earlier stored _ ih => exact Chain.part (keeps _ _ fetched) earlier stored ih

theorem Decodes.keep (decodes : Decodes pages encoded value)
    (keeps : KeepsOverflows pages later) : Decodes later encoded value := by
  cases decodes with
  | whole value => exact Decodes.whole value
  | spilled inline chain => exact Decodes.spilled inline (chain.keep keeps)

theorem Chain.toInt_nonneg (chain : Chain pages index rest) : 0 ≤ index.toInt := by
  cases chain with
  | done => decide
  | part fetched _ _ _ => exact (PageList.fetch_eq_some.mp fetched).1

/-! ## The pages of a chain -/

/-- A page lies on the chain of overflow pages that begins at an index. -/
inductive Along (pages : List Page) : PageIndex → PageIndex → Prop
  | here {index : PageIndex} {overflow : Overflow} (nonzero : index ≠ 0)
      (fetched : fetch pages index = some overflow.toPage) : Along pages index index
  | further {index other : PageIndex} {overflow : Overflow} (nonzero : index ≠ 0)
      (fetched : fetch pages index = some overflow.toPage)
      (along : Along pages overflow.next other) : Along pages index other

/-- A page lies on the chain of an encoded value. -/
def Spans (pages : List Page) (encoded : Bytes) (index : PageIndex) : Prop :=
  ∃ head, overflowHead? encoded = some head ∧ Along pages head index

theorem overflowHead?_full (value : Bytes) : overflowHead? (fullTag :: value) = none := by
  rw [overflowHead?, if_neg]
  rintro ⟨tagged, _⟩
  injection tagged with tagged
  contradiction

theorem overflowHead?_partial (head : PageIndex) (inline : Bytes) :
    overflowHead? (partialTag :: (Bytes.ofIndex head ++ inline)) = some head := by
  rw [overflowHead?, if_pos]
  · simp
  · simp [partialHeaderSize]

theorem Decodes.exists_chain {head : PageIndex} (decodes : Decodes pages encoded value)
    (headed : overflowHead? encoded = some head) : ∃ rest, Chain pages head rest := by
  cases decodes with
  | whole value =>
      rw [overflowHead?_full] at headed
      contradiction
  | spilled inline chain =>
      rw [overflowHead?_partial] at headed
      injection headed with same
      rw [← same]
      exact ⟨_, chain⟩

theorem Along.exists_fetch {head : PageIndex} (along : Along pages head index) :
    ∃ overflow : Overflow, fetch pages index = some overflow.toPage := by
  induction along with
  | here _ fetched => exact ⟨_, fetched⟩
  | further _ _ _ ih => exact ih

theorem not_along_zero : ¬ Along pages 0 index := by
  intro along
  cases along with
  | here nonzero _ => exact nonzero rfl
  | further nonzero _ _ => exact nonzero rfl

theorem Along.of_fetched {overflow : Overflow} {head : PageIndex} (along : Along pages head index)
    (fetched : fetch pages head = some overflow.toPage) :
    index = head ∨ Along pages overflow.next index := by
  cases along with
  | here _ _ => exact Or.inl rfl
  | further _ otherFetched along =>
      rw [fetched] at otherFetched
      injection otherFetched with same
      rw [Overflow.toPage_inj same]
      exact Or.inr along

/-- For a chain to be kept, it is enough that the pages on it are. -/
theorem Chain.keep_along {head : PageIndex} (chain : Chain pages head rest)
    (kept : ∀ index page, Along pages head index → fetch pages index = some page →
      fetch later index = some page) : Chain later head rest := by
  induction chain with
  | done => exact Chain.done
  | @part head overflow data rest fetched earlier stored follows ih =>
      have nonzero : head ≠ 0 := by
        rintro rfl
        have zero : (0 : PageIndex).toInt = 0 := rfl
        have := follows.toInt_nonneg
        omega
      refine Chain.part (kept head _ (.here nonzero fetched) fetched) earlier stored (ih ?_)
      intro index page along found
      exact kept index page (.further nonzero fetched along) found

/-- Where the pages of a chain are kept, it passes no other pages later. -/
theorem Chain.along_of_kept {head : PageIndex} (chain : Chain pages head rest)
    (kept : ∀ index page, Along pages head index → fetch pages index = some page →
      fetch later index = some page) (along : Along later head index) :
    Along pages head index := by
  induction chain with
  | done => exact absurd along not_along_zero
  | @part head overflow data rest fetched earlier stored follows ih =>
      have nonzero : head ≠ 0 := by
        rintro rfl
        exact not_along_zero along
      have here := Along.here nonzero fetched
      rcases along.of_fetched (kept head _ here fetched) with rfl | further
      · exact here
      · apply Along.further nonzero fetched (ih _ further)
        intro index page along found
        exact kept index page (.further nonzero fetched along) found

/-- An encoded value whose pages are kept leads to no others. -/
theorem Decodes.spans_of_kept (decodes : Decodes pages encoded value)
    (kept : ∀ index page, Spans pages encoded index → fetch pages index = some page →
      fetch later index = some page) (spans : Spans later encoded index) :
    Spans pages encoded index := by
  rcases spans with ⟨head, headed, along⟩
  rcases decodes.exists_chain headed with ⟨_, chain⟩
  refine ⟨head, headed, chain.along_of_kept ?_ along⟩
  exact fun index page along => kept index page ⟨head, headed, along⟩

theorem KeepsOverflows.kept {page : Page} {head : PageIndex} (keeps : KeepsOverflows pages later)
    (along : Along pages head index) (fetched : fetch pages index = some page) :
    fetch later index = some page := by
  rcases along.exists_fetch with ⟨overflow, isOverflow⟩
  rw [isOverflow] at fetched
  rw [← fetched]
  exact keeps _ _ isOverflow

theorem Chain.along_of_keep {head : PageIndex} (chain : Chain pages head rest)
    (keeps : KeepsOverflows pages later) (along : Along later head index) :
    Along pages head index :=
  chain.along_of_kept (fun _ _ => keeps.kept) along

theorem Decodes.spans_of_keep (decodes : Decodes pages encoded value)
    (keeps : KeepsOverflows pages later) (spans : Spans later encoded index) :
    Spans pages encoded index :=
  decodes.spans_of_kept (fun _ _ ⟨_, _, along⟩ => keeps.kept along) spans

/-- For an encoded value to stand for the same, it is enough that the pages on its chain are
kept. -/
theorem Decodes.keep_spanned (decodes : Decodes pages encoded value)
    (kept : ∀ index page, Spans pages encoded index → fetch pages index = some page →
      fetch later index = some page) : Decodes later encoded value := by
  cases decodes with
  | whole value => exact Decodes.whole value
  | @spilled head rest inline chain =>
      refine Decodes.spilled inline (chain.keep_along ?_)
      intro index page along found
      exact kept index page ⟨head, overflowHead?_partial head inline, along⟩ found

/-! ## Decoding -/

/-- Following a chain gives what the chain holds. -/
theorem follow_consults (chain : Chain pages index rest) {limit : Nat}
    (enough : index.toInt ≤ limit) (value : Bytes) :
    Consults pages (follow limit index value : TreeM σ Bytes) (· = value ++ rest) := by
  induction chain generalizing limit value with
  | done =>
      unfold follow
      exact Consults.pure (List.append_nil value).symm
  | @part index overflow data rest fetched earlier stored follows ih =>
      have nonnegative := follows.toInt_nonneg
      have nonzero : index ≠ 0 := by
        rintro rfl
        have zero : (0 : PageIndex).toInt = 0 := rfl
        omega
      cases limit with
      | zero => omega
      | succ limit =>
          rw [follow, if_neg nonzero]
          apply Consults.bind (Consults.readView fetched overflow.view_toPage)
          rintro _ rfl
          apply Consults.lift_bind stored
          rw [← List.append_assoc]
          exact ih (by omega) (value ++ data)

/-- Decoding gives back the value that the bytes and their chain stand for. -/
theorem decode_consults (decodes : Decodes pages encoded value) :
    Consults pages (decode encoded : TreeM σ Bytes) (· = value) := by
  cases decodes with
  | whole value =>
      simp only [decode]
      exact Consults.pure rfl
  | @spilled head rest inline chain =>
      have headed := overflowHead?_partial head inline
      have notFull : partialTag ≠ fullTag := by decide
      have within : head.toInt ≤ pages.length := by
        cases chain with
        | done => exact Int.natCast_nonneg _
        | part fetched _ _ _ =>
            have := PageList.position_lt fetched
            omega
      simp only [decode]
      simp only [headed]
      rw [if_neg notFull, if_neg (not_not_intro rfl)]
      apply Consults.bind Consults.pageCount
      rintro _ rfl
      have inline_eq : (Bytes.ofIndex head ++ inline).drop 8 = inline :=
        List.drop_left' (Bytes.length_ofIndex head)
      rw [inline_eq]
      exact follow_consults chain within inline

/-! ## Encoding -/

omit [AtomicPager σ] in
/-- One step of storing a value, once the overflow page is filled. -/
theorem spill_of_store {room pageTotal : Nat} {head : PageIndex} {remaining : Bytes}
    {filled : Overflow} (large : ¬ partialHeaderSize + rest.length ≤ room) (nonempty : rest ≠ [])
    (stores : (Overflow.empty head).store rest = .ok (filled, remaining)) :
    spill room rest head pageTotal = (do
      let index ← SessionM.onDevice (Pager.appendPage filled.toPage)
      if index = 0 then
        throw (.fault (.assertion .overflowAtZero))
      spill room remaining index (pageTotal + 1) : SessionM σ PagerError Spill) := by
  rw [spill, if_neg large, dif_neg nonempty]
  split
  next fault failed =>
    rw [failed] at stores
    contradiction
  next others stored =>
    rw [stored] at stores
    injection stores with stores
    injection stores with filled_eq remaining_eq
    subst filled_eq remaining_eq
    rfl

theorem keepsOverflows_of_longer (longer : pages <+: later) : KeepsOverflows pages later := by
  intro index overflow fetched
  rcases longer with ⟨more, rfl⟩
  exact PageList.fetch_append fetched

/-- The overflow pages that are needed for so many bytes to be left with room beside a header. -/
def partsFor (room size : Nat) : Nat :=
  (partialHeaderSize + size - room + (overflowCapacity - 1)) / overflowCapacity

theorem partsFor_of_fits {room size : Nat} (fits : partialHeaderSize + size ≤ room) :
    partsFor room size = 0 := by
  simp only [partsFor, overflowCapacity, partialHeaderSize, pageSize, headerSize] at fits ⊢
  omega

theorem partsFor_of_large {room size left : Nat} (headerFits : partialHeaderSize ≤ room)
    (large : ¬ partialHeaderSize + size ≤ room)
    (left_eq : left + min size overflowCapacity = size) :
    partsFor room size = partsFor room left + 1 := by
  simp only [partsFor, overflowCapacity, partialHeaderSize, pageSize, headerSize] at *
  omega

/-- What storing the last bytes of a value leaves behind, in front of what was stored before. -/
structure Spilled (room : Nat) (rest tail : Bytes) (head : PageIndex) (before : Session σ)
    (spilled : Spill) (after : Session σ) : Prop where
  appended : Appended before after
  small : partialHeaderSize + spilled.inline.length ≤ room
  stored : ∃ stored, spilled.inline ++ stored = rest ++ tail ∧
    Chain after.pages spilled.head stored
  along : ∀ index, Along after.pages spilled.head index →
    Along before.pages head index ∨ fetch before.pages index = none
  parts : ∃ parts : List Overflow, after.pages = before.pages ++ parts.map Overflow.toPage ∧
    parts.length = partsFor room rest.length

/-- An overflow page put before a chain makes it longer by one part. A pager that accepts the page
does not fail. -/
theorem append_part_ends {head : PageIndex} {filled : Overflow} {part tail : Bytes} {more : Nat}
    (session : Session σ) (chain : Chain session.pages head tail)
    (nonempty : 0 < session.pages.length) (next_eq : filled.next = head)
    (stored : filled.data = .ok part) :
    Ends (SessionM.onDevice (Pager.appendPage filled.toPage) session)
      (fun index after => Appended session after ∧ index ≠ 0 ∧
        Chain after.pages index (part ++ tail) ∧ fetch session.pages index = none ∧
        fetch after.pages index = some filled.toPage ∧
        after.pages = session.pages ++ [filled.toPage] ∧
        (Accepts (more + 1) session.device → Accepts more after.device))
      (fun failure after => Unappended session failure after ∧
        ¬ Accepts (more + 1) session.device) := by
  apply SessionM.onDevice_ends
  apply Ends.mono ((AtomicPager.appendPage_ends filled.toPage session.device).and (Ends.self ..))
  · rintro index device ⟨⟨rfl, room, appended, calm⟩, appends⟩
    have position := PageList.toInt_nextIndex room
    have longer : session.pages <+: AtomicPager.pages device := ⟨_, appended.symm⟩
    have fetched : fetch (AtomicPager.pages device) (nextIndex session.pages) =
        some filled.toPage := by
      rw [appended]
      exact PageList.fetch_nextIndex room
    refine ⟨⟨longer, calm⟩, ?_, ?_, PageList.fetch_nextIndex_none room, fetched, appended, ?_⟩
    · intro zero
      rw [zero] at position
      have atZero : (0 : PageIndex).toInt = 0 := rfl
      change _ = ((session.pages.length : Nat) : Int) at position
      omega
    · refine Chain.part fetched ?_ stored ?_
      · rw [next_eq, position]
        cases chain with
        | done => exact Int.ofNat_lt.mpr nonempty
        | part fetched _ _ _ =>
            have inside := PageList.position_lt fetched
            change _ < ((session.pages.length : Nat) : Int)
            omega
      · rw [next_eq]
        exact chain.keep (keepsOverflows_of_longer longer)
    · intro accepts
      rcases accepts filled.toPage with ⟨_, _, given, accepted⟩
      rw [appends] at given
      injection given with _ same
      exact same ▸ accepted
  · rintro error device ⟨⟨longer, full⟩, fails⟩
    refine ⟨⟨⟨error, rfl⟩, ⟨longer, fun calm => (full calm).1⟩, fun calm => ?_⟩, ?_⟩
    · exact Nat.le_trans (full calm).2 longer.length_le
    · intro accepts
      rcases accepts filled.toPage with ⟨_, _, given, _⟩
      rw [fails] at given
      contradiction

/-- Spilling appends the pages of a value from its last part to the first, so that each links to one
that is there. -/
theorem spill_ends {room : Nat} (headerFits : partialHeaderSize ≤ room) (rest : Bytes)
    (head : PageIndex) (pageTotal : Nat) (session : Session σ) {tail : Bytes}
    (chain : Chain session.pages head tail) (nonempty : 0 < session.pages.length) :
    Ends (spill room rest head pageTotal session) (Spilled room rest tail head session)
      (fun failure after => Unappended session failure after ∧
        ¬ Accepts (partsFor room rest.length) session.device) := by
  by_cases fits : partialHeaderSize + rest.length ≤ room
  · rw [spill, if_pos fits]
    exact {
      appended := ⟨List.prefix_refl _, id⟩
      small := fits
      stored := ⟨tail, rfl, chain⟩
      along := fun _ => Or.inl
      parts := ⟨[], by simp, (partsFor_of_fits fits).symm⟩ }
  have notEmpty : rest ≠ [] := by
    rintro rfl
    exact fits headerFits
  rcases Overflow.store_yields head rest with
    ⟨⟨filled, remaining⟩, stores, next_eq, part, stored, rest_eq, length_part⟩
  have shorter : remaining.length < rest.length := Overflow.length_rest_lt notEmpty stores
  have split_eq : remaining.length + min rest.length overflowCapacity = rest.length := by
    rw [← length_part, ← List.length_append, rest_eq]
  rw [spill_of_store fits notEmpty stores, partsFor_of_large headerFits fits split_eq]
  apply Ends.bind (append_part_ends session chain nonempty next_eq stored)
  rintro index middle ⟨appended, nonzero, chained, isNew, fetched, snoc, accepts⟩
  simp only [if_neg nonzero]
  have stillNonempty : 0 < middle.pages.length :=
    Nat.lt_of_lt_of_le nonempty appended.longer.length_le
  -- The page has taken the last bytes, and what remains is shorter.
  apply Ends.mono (spill_ends headerFits remaining index (pageTotal + 1) middle chained
    stillNonempty)
  · intro spilled after later
    rcases later.stored with ⟨tailStored, together, chainedAfter⟩
    rcases later.parts with ⟨parts, pages_eq, count⟩
    exact {
      appended := appended.trans later.appended
      small := later.small
      stored := by
        refine ⟨tailStored, ?_, chainedAfter⟩
        rw [together, ← rest_eq, List.append_assoc]
      along := by
        intro other along
        rcases later.along other along with along | missing
        · rcases along.of_fetched fetched with rfl | further
          · exact Or.inr isNew
          · rw [next_eq] at further
            exact Or.inl (chain.along_of_keep (keepsOverflows_of_longer appended.longer) further)
        · exact Or.inr (PageList.fetch_none_of_le appended.longer.length_le missing)
      parts := by
        refine ⟨filled :: parts, ?_, ?_⟩
        · rw [pages_eq, snoc, List.map_cons, List.append_assoc, List.singleton_append]
        · rw [List.length_cons, count, partsFor_of_large headerFits fits split_eq] }
  · rintro failure after ⟨fails, refuses⟩
    exact ⟨appended.unappended fails, fun accepting => refuses (accepts accepting)⟩
termination_by rest.length

/-- The overflow pages that a value needs beside a key of some size. -/
def overflowsFor (keySize size : Nat) : Nat :=
  if keySize + 1 + size ≤ maxInlineEntry then 0 else partsFor (maxInlineEntry - keySize) size

/-- What encoding a value leaves behind. -/
structure Encoded (keySize : Nat) (value : Bytes) (before : Session σ) (encoded : Bytes)
    (after : Session σ) : Prop where
  appended : Appended before after
  small : keySize + encoded.length ≤ maxInlineEntry
  decodes : Decodes after.pages encoded value
  /-- The pages of the chain are new. -/
  spans_new : ∀ index, Spans after.pages encoded index → fetch before.pages index = none
  parts : ∃ parts : List Overflow, after.pages = before.pages ++ parts.map Overflow.toPage ∧
    parts.length = overflowsFor keySize value.length
  whole : keySize + 1 + value.length ≤ maxInlineEntry → encoded = fullTag :: value
  cut : ¬ keySize + 1 + value.length ≤ maxInlineEntry →
    ∃ head inline, encoded = partialTag :: (Bytes.ofIndex head ++ inline)

/-- A value is encoded into few bytes that stand for it, if its overflow pages can be appended. -/
theorem encode_ends {keySize : Nat} (keyFits : keySize + partialHeaderSize ≤ maxInlineEntry)
    (value : Bytes) (addressable : value.length < Word.signedLimit) (session : Session σ)
    (nonempty : 0 < session.pages.length) :
    Ends (encode keySize value session) (Encoded keySize value session)
      (fun failure after => Unappended session failure after ∧
        ¬ Accepts (overflowsFor keySize value.length) session.device) := by
  simp only [partialHeaderSize, maxInlineEntry, Word.signedLimit] at keyFits addressable
  have tagged : Word.add keySize 1 = .ok (keySize + 1) :=
    Word.add_eq_ok (by simp only [Word.limit]; omega)
  have sized : Word.add (keySize + 1) value.length = .ok (keySize + 1 + value.length) :=
    Word.add_eq_ok (by simp only [Word.limit]; omega)
  have room : Word.sub maxInlineEntry keySize = .ok (maxInlineEntry - keySize) :=
    Word.sub_eq_ok (by simp only [maxInlineEntry]; omega)
  simp only [encode]
  rw [Ends.lift_bind tagged, Ends.lift_bind sized]
  -- A value that fits is stored as it is. Of any other the last bytes go to overflow pages.
  split
  next fits =>
    exact {
      appended := ⟨List.prefix_refl _, id⟩
      small := by
        rw [List.length_cons]
        omega
      decodes := Decodes.whole value
      spans_new := by
        rintro index ⟨head, headed, _⟩
        rw [overflowHead?_full] at headed
        contradiction
      parts := ⟨[], by simp, (if_pos fits).symm⟩
      whole := fun _ => rfl
      cut := fun large => absurd fits large }
  next large =>
    rw [Ends.lift_bind room, show overflowsFor keySize value.length = _ from if_neg large]
    apply Ends.bind (spill_ends (by simp only [partialHeaderSize, maxInlineEntry]; omega) value 0 0
      session Chain.done nonempty)
    intro spilled after stores
    rcases stores.stored with ⟨stored, together, chained⟩
    rw [List.append_nil] at together
    exact {
      appended := ⟨stores.appended.longer, stores.appended.calm⟩
      small := by
        have small := stores.small
        simp only [partialHeaderSize] at small
        rw [List.length_cons, List.length_append, Bytes.length_ofIndex]
        omega
      decodes := by
        change Decodes after.pages _ _
        rw [← together]
        exact Decodes.spilled spilled.inline chained
      spans_new := by
        rintro index ⟨head, headed, along⟩
        rw [overflowHead?_partial] at headed
        injection headed with head_eq
        rw [← head_eq] at along
        exact (stores.along index along).resolve_left not_along_zero
      parts := by
        rw [overflowsFor, if_neg large]
        exact stores.parts
      whole := fun fits => absurd fits large
      cut := fun _ => ⟨spilled.head, spilled.inline, rfl⟩ }

end Value

end PagedMap
