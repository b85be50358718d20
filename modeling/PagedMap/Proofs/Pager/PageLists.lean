import PagedMap.Pager.Memory
import PagedMap.Proofs.Ending

/-!
# Lists of pages

What a pager keeps is a list of pages. Pages are fetched from it by index; one page may be stored in
the place of another, and others appended. Whatever happens to a list in this way, pages that are
not overwritten are fetched as before.
-/

namespace PagedMap.PageList

variable {pages later more : List Page} {page old : Page} {index other : PageIndex}

/-- The page with an index, if there is one. -/
def fetch (pages : List Page) (index : PageIndex) : Option Page :=
  if index.toInt < 0 then none else pages[index.toInt.toNat]?

/-- The list with another page in place of one that is there. -/
def store (pages : List Page) (index : PageIndex) (page : Page) : List Page :=
  pages.set index.toInt.toNat page

/-- The index of the page that would be appended next. -/
def nextIndex (pages : List Page) : PageIndex := Int64.ofNat pages.length

theorem fetch_eq_some : fetch pages index = some page ↔
    0 ≤ index.toInt ∧ pages[index.toInt.toNat]? = some page := by
  simp only [fetch]
  split
  · constructor
    · intro none_eq
      contradiction
    · intro both
      omega
  · constructor
    · intro found
      exact ⟨by omega, found⟩
    · exact And.right

theorem position_lt (fetched : fetch pages index = some page) :
    index.toInt.toNat < pages.length := by
  rcases fetch_eq_some.mp fetched with ⟨_, found⟩
  exact (List.getElem?_eq_some_iff.mp found).1

theorem position_eq (fetched : fetch pages index = some page) :
    PageIndex.position index = .ok index.toInt.toNat := by
  rcases fetch_eq_some.mp fetched with ⟨nonnegative, _⟩
  exact if_neg (by omega)

theorem ofPosition_position {position : Nat} (known : PageIndex.position index = .ok position) :
    PageIndex.ofPosition position = .ok index := by
  have bounded := Int64.toInt_lt index
  simp only [PageIndex.position] at known
  split at known
  · contradiction
  · injection known with known
    rw [PageIndex.ofPosition, if_pos (by simp only [Word.signedLimit]; omega)]
    apply congrArg Except.ok
    apply Int64.toInt_inj.mp
    rw [Int64.toInt_ofNat_of_lt (by omega)]
    omega

theorem fetch_none_of_le (longer : pages.length ≤ later.length)
    (missing : fetch later index = none) : fetch pages index = none := by
  simp only [fetch] at missing ⊢
  split at missing
  · rename_i negative
    exact if_pos negative
  · rename_i nonnegative
    rw [if_neg nonnegative]
    rw [List.getElem?_eq_none_iff] at missing ⊢
    omega

/-- A page that is there and one that is not have different indices. -/
theorem ne_of_fetch (fetched : fetch pages index = some page)
    (missing : fetch pages other = none) : index ≠ other := by
  intro same
  rw [same, missing] at fetched
  contradiction

/-! ## Distinct pages -/

/-- There are no more distinct numbers below a bound than the bound. -/
theorem length_le_of_bounded {numbers : List Nat} {bound : Nat} (distinct : numbers.Nodup)
    (bounded : ∀ number ∈ numbers, number < bound) : numbers.length ≤ bound := by
  induction bound generalizing numbers with
  | zero =>
      cases numbers with
      | nil => exact Nat.le_refl _
      | cons number _ => exact absurd (bounded number List.mem_cons_self) (Nat.not_lt_zero _)
  | succ bound ih =>
      have others : (numbers.erase bound).length ≤ bound := by
        apply ih (distinct.erase bound)
        intro number member
        rcases (distinct.mem_erase_iff).mp member with ⟨different, inNumbers⟩
        have := bounded number inNumbers
        omega
      by_cases present : bound ∈ numbers
      · have := List.length_erase_of_mem present
        omega
      · rw [List.erase_of_not_mem present] at others
        omega

theorem nodup_positions {indices : List PageIndex} (distinct : indices.Nodup)
    (fetched : ∀ index ∈ indices, ∃ page, fetch pages index = some page) :
    (indices.map fun index => index.toInt.toNat).Nodup := by
  apply List.pairwise_map.mpr
  apply List.Pairwise.imp_of_mem _ distinct
  intro left right inLeft inRight different samePosition
  rcases fetched left inLeft with ⟨_, leftFetched⟩
  rcases fetched right inRight with ⟨_, rightFetched⟩
  have leftNonnegative := (fetch_eq_some.mp leftFetched).1
  have rightNonnegative := (fetch_eq_some.mp rightFetched).1
  apply different
  apply Int64.toInt_inj.mp
  omega

/-- There are no more distinct indices with a page than pages. -/
theorem length_le_of_fetched {indices : List PageIndex} (distinct : indices.Nodup)
    (fetched : ∀ index ∈ indices, ∃ page, fetch pages index = some page) :
    indices.length ≤ pages.length := by
  have bounded : ∀ number ∈ indices.map fun index : PageIndex => index.toInt.toNat,
      number < pages.length := by
    intro number member
    rcases List.mem_map.mp member with ⟨index, inIndices, rfl⟩
    rcases fetched index inIndices with ⟨_, found⟩
    exact position_lt found
  simpa using length_le_of_bounded (nodup_positions distinct fetched) bounded

/-! ## Appending -/

theorem fetch_append (fetched : fetch pages index = some page) :
    fetch (pages ++ more) index = some page := by
  rcases fetch_eq_some.mp fetched with ⟨nonnegative, found⟩
  apply fetch_eq_some.mpr
  rw [List.getElem?_append_left (position_lt fetched)]
  exact ⟨nonnegative, found⟩

theorem toInt_nextIndex (room : pages.length < Word.signedLimit) :
    (nextIndex pages).toInt = pages.length :=
  Int64.toInt_ofNat_of_lt (by simpa [Word.signedLimit] using room)

/-- An appended page is found at the index that was next. -/
theorem fetch_nextIndex (room : pages.length < Word.signedLimit) :
    fetch (pages ++ page :: more) (nextIndex pages) = some page := by
  apply fetch_eq_some.mpr
  simp [toInt_nextIndex room]

theorem fetch_nextIndex_none (room : pages.length < Word.signedLimit) :
    fetch pages (nextIndex pages) = none := by
  rw [fetch, if_neg (by simp [toInt_nextIndex room])]
  simp [toInt_nextIndex room]

theorem mem_of_append (missing : fetch pages index = none)
    (fetched : fetch (pages ++ more) index = some page) : page ∈ more := by
  rcases fetch_eq_some.mp fetched with ⟨nonnegative, found⟩
  rw [fetch, if_neg (by omega), List.getElem?_eq_none_iff] at missing
  rw [List.getElem?_append_right missing] at found
  exact List.mem_of_getElem? found

theorem eq_nextIndex_of_append (missing : fetch pages index = none)
    (fetched : fetch (pages ++ [page]) index = some old) : index = nextIndex pages := by
  rcases fetch_eq_some.mp fetched with ⟨nonnegative, _⟩
  have inside := position_lt fetched
  rw [fetch, if_neg (by omega), List.getElem?_eq_none_iff] at missing
  have bounded := Int64.toInt_lt index
  rw [List.length_append, List.length_singleton] at inside
  apply Int64.toInt_inj.mp
  rw [toInt_nextIndex (by simp only [Word.signedLimit]; omega)]
  omega

/-! ## Storing -/

@[simp]
theorem length_store : (store pages index page).length = pages.length :=
  List.length_set

theorem fetch_store_same (fetched : fetch pages index = some old) :
    fetch (store pages index page) index = some page := by
  rcases fetch_eq_some.mp fetched with ⟨nonnegative, _⟩
  apply fetch_eq_some.mpr
  exact ⟨nonnegative, List.getElem?_set_self (position_lt fetched)⟩

theorem fetch_store_elsewhere (nonnegative : 0 ≤ index.toInt) (different : index ≠ other) :
    fetch (store pages index page) other = fetch pages other := by
  simp only [fetch]
  split
  · rfl
  · rename_i otherNonnegative
    apply List.getElem?_set_ne
    intro samePosition
    apply different
    apply Int64.toInt_inj.mp
    omega

theorem fetch_store_of_ne (fetched : fetch pages index = some old) (different : index ≠ other) :
    fetch (store pages index page) other = fetch pages other :=
  fetch_store_elsewhere (fetch_eq_some.mp fetched).1 different

/-! ## The operations on pages in memory -/

theorem position_bind {ε α β S : Type} {outcome : Except ε α} {value : α} {state : S}
    (known : outcome = .ok value) (next : α → EStateM ε S β) :
    (liftM outcome >>= next) state = next value state := by
  rw [known]
  rfl

theorem unknown_bind {ε α β S : Type} {outcome : Except ε α} {error : ε} {state : S}
    (unknown : outcome = .error error) (next : α → EStateM ε S β) :
    (liftM outcome >>= next) state = .error error state := by
  rw [unknown]
  rfl

theorem readPages_eq (pages : List Page) {position : Nat}
    (known : PageIndex.position index = .ok position) (amount : Nat) :
    Pager.readPages index amount (⟨pages⟩ : Memory) =
      if position + amount > pages.length then
        .error (.outOfBounds index pages.length) ⟨pages⟩
      else
        .ok ((pages.drop position).take amount) ⟨pages⟩ := by
  refine (position_bind known _).trans ?_
  change (if position + amount > pages.length then _ else _ : EStateM _ Memory _) _ = _
  split <;> rfl

theorem readPage_eq (fetched : fetch pages index = some page) :
    Pager.readPage index (⟨pages⟩ : Memory) = .ok page ⟨pages⟩ := by
  rcases fetch_eq_some.mp fetched with ⟨_, found⟩
  have inside := position_lt fetched
  have taken : (pages.drop index.toInt.toNat).take 1 = [page] := by
    rcases List.getElem?_eq_some_iff.mp found with ⟨_, rfl⟩
    rw [List.drop_eq_getElem_cons inside]
    rfl
  have read := readPages_eq pages (position_eq fetched) 1
  rw [if_neg (by omega), taken] at read
  exact bind_eq_of_ok read _

theorem readPage_negative (pages : List Page) (negative : index.toInt < 0) :
    Pager.readPage index (⟨pages⟩ : Memory) = .error (.invalidIndex index) ⟨pages⟩ := by
  have unknown : PageIndex.position index = .error (.invalidIndex index) := if_pos negative
  change EStateM.bind (EStateM.bind (liftM (PageIndex.position index)) _) _ _ = _
  rw [unknown]
  rfl

theorem readPage_outside (outside : (pages.length : Int) ≤ index.toInt) :
    Pager.readPage index (⟨pages⟩ : Memory) =
      .error (.outOfBounds index pages.length) ⟨pages⟩ := by
  have known : PageIndex.position index = .ok index.toInt.toNat := if_neg (by omega)
  have read := readPages_eq pages known 1
  rw [if_pos (by omega)] at read
  exact bind_eq_of_error read _

theorem fetch_eq_none : fetch pages index = none ↔
    index.toInt < 0 ∨ (pages.length : Int) ≤ index.toInt := by
  simp only [fetch]
  split
  next negative => exact ⟨fun _ => Or.inl negative, fun _ => rfl⟩
  next nonnegative =>
    rw [List.getElem?_eq_none_iff]
    omega

theorem readPage_missing (missing : fetch pages index = none) :
    ∃ error, Pager.readPage index (⟨pages⟩ : Memory) = .error error ⟨pages⟩ := by
  rcases fetch_eq_none.mp missing with negative | outside
  · exact ⟨_, readPage_negative pages negative⟩
  · exact ⟨_, readPage_outside outside⟩

theorem writePages_eq (pages written : List Page) {position : Nat}
    (known : PageIndex.position index = .ok position) (reachable : position ≤ pages.length) :
    Pager.writePages written (some index) (⟨pages⟩ : Memory) =
      .ok index ⟨Memory.splice pages position written⟩ := by
  refine (position_bind known _).trans ?_
  have inside : ¬ position > pages.length := by omega
  change (if position > pages.length then _ else _ : EStateM _ Memory _) _ = _
  rw [if_neg inside]
  exact position_bind (ofPosition_position known) _

theorem writePages_outside (written : List Page) {position : Nat}
    (known : PageIndex.position index = .ok position) (outside : pages.length < position) :
    Pager.writePages written (some index) (⟨pages⟩ : Memory) =
      .error (.outOfBounds index pages.length) ⟨pages⟩ := by
  refine (position_bind known _).trans ?_
  change (if position > pages.length then _ else _ : EStateM _ Memory _) _ = _
  rw [if_pos outside]
  exact position_bind (ofPosition_position known) _

theorem splice_there (fetched : fetch pages index = some old) :
    Memory.splice pages index.toInt.toNat [page] = store pages index page := by
  rw [Memory.splice, store, List.set_eq_take_append_cons_drop, if_pos (position_lt fetched)]
  simp

theorem writePage_eq (fetched : fetch pages index = some old) :
    Pager.writePage page index (⟨pages⟩ : Memory) = .ok () ⟨store pages index page⟩ := by
  have inside := position_lt fetched
  have written := writePages_eq pages [page] (position_eq fetched) (by omega)
  rw [splice_there fetched] at written
  exact bind_eq_of_ok written _

theorem splice_end (pages : List Page) (page : Page) :
    Memory.splice pages pages.length [page] = pages ++ [page] := by
  simp [Memory.splice]

theorem writePage_end (isEnd : PageIndex.position index = .ok pages.length) :
    Pager.writePage page index (⟨pages⟩ : Memory) = .ok () ⟨pages ++ [page]⟩ := by
  have written := writePages_eq pages [page] isEnd (Nat.le_refl _)
  rw [splice_end] at written
  exact bind_eq_of_ok written _

theorem ofPosition_length (room : pages.length < Word.signedLimit) :
    PageIndex.ofPosition pages.length = .ok (nextIndex pages) :=
  if_pos room

theorem appendPages_eq (written : List Page) (room : pages.length < Word.signedLimit) :
    Pager.writePages written none (⟨pages⟩ : Memory) =
      .ok (nextIndex pages) ⟨Memory.splice pages pages.length written⟩ := by
  change (if pages.length > pages.length then _ else _ : EStateM _ Memory _) _ = _
  rw [if_neg (Nat.lt_irrefl _)]
  exact position_bind (ofPosition_length room) _

theorem appendPage_eq (room : pages.length < Word.signedLimit) :
    Pager.appendPage page (⟨pages⟩ : Memory) = .ok (nextIndex pages) ⟨pages ++ [page]⟩ := by
  have appended := appendPages_eq [page] room
  rw [splice_end] at appended
  exact appended

theorem appendPages_full (written : List Page) (full : Word.signedLimit ≤ pages.length) :
    ∃ error, Pager.writePages written none (⟨pages⟩ : Memory) = .error error ⟨pages⟩ := by
  have unnamed : PageIndex.ofPosition pages.length =
      .error (.outOfBounds Int64.maxValue pages.length) := if_neg (by omega)
  refine ⟨.outOfBounds Int64.maxValue pages.length, ?_⟩
  change (if pages.length > pages.length then _ else _ : EStateM _ Memory _) _ = _
  rw [if_neg (Nat.lt_irrefl _), unnamed]
  rfl

end PagedMap.PageList

namespace PagedMap

/-! ## Lists that grow -/

/-- All pages of a list are in the other one as well. -/
def Includes (pages later : List Page) : Prop :=
  ∀ index page, PageList.fetch pages index = some page → PageList.fetch later index = some page

theorem includes_of_longer {pages later : List Page} (longer : pages <+: later) :
    Includes pages later := by
  intro index page fetched
  rcases longer with ⟨more, rfl⟩
  exact PageList.fetch_append fetched

/-- All pages of a list, but for the one with an index, are in the other one as well. -/
def IncludesOthers (index : PageIndex) (pages later : List Page) : Prop :=
  ∀ other page, other ≠ index → PageList.fetch pages other = some page →
    PageList.fetch later other = some page

theorem Includes.others {index : PageIndex} {pages later : List Page}
    (includes : Includes pages later) : IncludesOthers index pages later :=
  fun other page _ => includes other page

theorem IncludesOthers.trans {index : PageIndex} {pages middle later : List Page}
    (first : IncludesOthers index pages middle) (second : IncludesOthers index middle later) :
    IncludesOthers index pages later := fun other page different fetched =>
  second other page different (first other page different fetched)

/-- All pages of a list, apart from some, are in the other one as well. -/
def IncludesApart (others : PageIndex → Prop) (pages later : List Page) : Prop :=
  ∀ index page, ¬ others index → PageList.fetch pages index = some page →
    PageList.fetch later index = some page

/-- The pages that one list has and another has not are among some. -/
def AddsOnly (added : PageIndex → Prop) (pages later : List Page) : Prop :=
  ∀ index page, PageList.fetch pages index = none → PageList.fetch later index = some page →
    added index

namespace AddsOnly

variable {added more : PageIndex → Prop} {pages middle later : List Page}

theorem trans (first : AddsOnly added pages middle) (second : AddsOnly more middle later) :
    AddsOnly (fun index => added index ∨ more index) pages later := by
  intro index page missing fetched
  cases inMiddle : PageList.fetch middle index with
  | none => exact Or.inr (second index page inMiddle fetched)
  | some other => exact Or.inl (first index other missing inMiddle)

theorem mono (adds : AddsOnly added pages later) (implies : ∀ index, added index → more index) :
    AddsOnly more pages later := fun index page missing fetched =>
  implies index (adds index page missing fetched)

theorem of_length_le (shorter : later.length ≤ pages.length) : AddsOnly added pages later := by
  intro index page missing fetched
  rw [PageList.fetch_none_of_le shorter missing] at fetched
  contradiction

theorem append (pages : List Page) (page : Page) :
    AddsOnly (· = PageList.nextIndex pages) pages (pages ++ [page]) :=
  fun _ _ => PageList.eq_nextIndex_of_append

end AddsOnly

theorem Includes.apart {others : PageIndex → Prop} {pages later : List Page}
    (includes : Includes pages later) : IncludesApart others pages later :=
  fun index page _ => includes index page

end PagedMap
