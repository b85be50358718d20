import PagedMap.Proofs.Pager.Atomic

/-!
# Pagers as arrays of pages

A pager is an array of pages that only grows: one page is read, overwritten or appended at a time,
and what is asked for several pages is the same as asking for one after the other. Pages in memory
are such an array, and so is every calm pager that keeps a list of pages, because it answers as
pages in memory do.
-/

namespace PagedMap

open AtomicPager (pages Calm)
open PageList (fetch store nextIndex)

variable {σ ε α ι S T : Type}

/-! ## One computation after the other -/

/-- How a computation ended, without the state that it left. -/
def outcome (result : EStateM.Result ε S α) : Except ε α :=
  match result with
  | .ok value _ => .ok value
  | .error failure _ => .error failure

/-- How computations end, each begun in the state that the one before it left, and the last state.
A failure does not keep the later ones from being begun. -/
def runAll : List (EStateM ε S α) → S → List (Except ε α) × S
  | [], state => ([], state)
  | action :: rest, state =>
    let (outcomes, last) := runAll rest (lastState (action state))
    (outcome (action state) :: outcomes, last)

theorem runAll_cons_ok {action : EStateM ε S α} {rest : List (EStateM ε S α)} {value : α}
    {state after : S} (given : action state = .ok value after) :
    runAll (action :: rest) state =
      (.ok value :: (runAll rest after).1, (runAll rest after).2) := by
  simp only [runAll]
  rw [given]
  rfl

/-- What is lost for ever when it is lost was there before a run if it is there afterwards. -/
theorem good_of_runAll {Good : T → Prop} {model : ι → EStateM ε T α}
    (lasting : ∀ input state, Good (lastState (model input state)) → Good state)
    (inputs : List ι) {state : T} (good : Good (runAll (inputs.map model) state).2) :
    Good state := by
  induction inputs generalizing state with
  | nil => exact good
  | cons input rest ih => exact lasting input state (ih good)

/-- Two systems that do the same in each step do the same in a run. The steps need to agree only
while a property holds that is lost for ever when it is lost. -/
theorem runAll_agrees (Alike : S → T → Prop) (Good : T → Prop) {step : ι → EStateM ε S α}
    {model : ι → EStateM ε T α}
    (lasting : ∀ input state, Good (lastState (model input state)) → Good state)
    (agrees : ∀ input state other, Alike state other → Good other →
      outcome (step input state) = outcome (model input other) ∧
        Alike (lastState (step input state)) (lastState (model input other)))
    (inputs : List ι) {state : S} {other : T} (alike : Alike state other)
    (good : Good (runAll (inputs.map model) other).2) :
    (runAll (inputs.map step) state).1 = (runAll (inputs.map model) other).1 ∧
      Alike (runAll (inputs.map step) state).2 (runAll (inputs.map model) other).2 := by
  induction inputs generalizing state other with
  | nil => exact ⟨rfl, alike⟩
  | cons input rest ih =>
      have goodAfter : Good (lastState (model input other)) := good_of_runAll lasting rest good
      rcases agrees input state other alike (lasting input other goodAfter) with
        ⟨sameOutcome, alikeAfter⟩
      rcases ih alikeAfter good with ⟨sameOutcomes, alikeLast⟩
      refine ⟨?_, alikeLast⟩
      simp only [List.map_cons, runAll]
      rw [sameOutcome, sameOutcomes]

/-! ## What is asked of a pager -/

/-- A call on a pager. -/
inductive PagerCall where
  | read (start : PageIndex) (amount : Nat)
  | write (written : List Page) (start : Option PageIndex)
  | sync
  | pageCount

/-- What a pager gives back. -/
inductive PagerReply where
  | pages (read : List Page)
  /-- The index of the first page written. -/
  | first (index : PageIndex)
  | done
  | count (number : Nat)

namespace PagerCall

def ask [Pager σ] : PagerCall → EStateM PagerError σ PagerReply
  | read start amount => return .pages (← Pager.readPages start amount)
  | write written start => return .first (← Pager.writePages written start)
  | sync => do
    Pager.sync
    return .done
  | pageCount => return .count (← Pager.pageCount)

/-- The calls that ask for one page after the other. -/
def pageByPage : PagerCall → List PagerCall
  | read start amount => (List.range amount).map fun offset => read (start + Int64.ofNat offset) 1
  | write written (some start) =>
    written.mapIdx fun offset page => write [page] (some (start + Int64.ofNat offset))
  | write written none => written.map fun page => write [page] none
  | sync => [sync]
  | pageCount => [pageCount]

/-- A reply to a call is what the replies for one page after the other come to. -/
def Amounts (stored : List Page) : PagerCall → PagerReply → List PagerReply → Prop
  | read _ _, reply, replies =>
    ∃ read, reply = .pages read ∧ replies = read.map fun page => .pages [page]
  | write written start, reply, replies =>
    ∃ index, index = start.getD (nextIndex stored) ∧ reply = .first index ∧
      replies = (List.range written.length).map fun offset => .first (index + Int64.ofNat offset)
  | sync, reply, replies => replies = [reply]
  | pageCount, reply, replies => replies = [reply]

/-- In a state, a call has an outcome and leaves certain pages behind. -/
def Results [Pager σ] [AtomicPager σ] (call : PagerCall) (state : σ)
    (given : Except PagerError PagerReply) (later : List Page) : Prop :=
  outcome (call.ask state) = given ∧ pages (lastState (call.ask state)) = later

end PagerCall

/-- There is an index for each page, and one for the next. That is so wherever the size of what is
kept is a word, since a page takes more than one byte. -/
def Roomy (stored : List Page) : Prop := stored.length < Word.signedLimit

instance (stored : List Page) : Decidable (Roomy stored) :=
  inferInstanceAs (Decidable (stored.length < Word.signedLimit))

/-- The error that says that there is no page with an index. -/
def PagerError.missing (index : PageIndex) (count : Nat) : PagerError :=
  if index.toInt < 0 then .invalidIndex index else .outOfBounds index count

/-- A pager is an array of pages that only grows. -/
structure IsPageArray [Pager σ] [AtomicPager σ] (state : σ) : Prop where
  reads : ∀ index page, fetch (pages state) index = some page →
    PagerCall.Results (.read index 1) state (.ok (.pages [page])) (pages state)
  readsMissing : ∀ index, fetch (pages state) index = none →
    PagerCall.Results (.read index 1) state (.error (.missing index (pages state).length))
      (pages state)
  overwrites : ∀ index old page, fetch (pages state) index = some old →
    PagerCall.Results (.write [page] (some index)) state (.ok (.first index))
      (store (pages state) index page)
  /-- A page is appended where the array ends, whether that is said or not. -/
  appends : ∀ start page, start = none ∨ start = some (nextIndex (pages state)) →
    PagerCall.Results (.write [page] start) state (.ok (.first (nextIndex (pages state))))
      (pages state ++ [page])
  refuses : ∀ index page, fetch (pages state) index = none → index ≠ nextIndex (pages state) →
    PagerCall.Results (.write [page] (some index)) state
      (.error (.missing index (pages state).length)) (pages state)
  counts : PagerCall.Results .pageCount state (.ok (.count (pages state).length)) (pages state)
  syncs : PagerCall.Results .sync state (.ok .done) (pages state)
  grows : ∀ call : PagerCall,
    (pages state).length ≤ (pages (lastState (call.ask state))).length
  /-- A call that fails changes nothing. -/
  failing : ∀ (call : PagerCall) error,
    outcome (call.ask state) = .error error → pages (lastState (call.ask state)) = pages state
  /-- A call for several pages that succeeds does what calls for one page after the other do. -/
  pageByPage : ∀ (call : PagerCall) reply, outcome (call.ask state) = .ok reply →
    Roomy (pages (lastState (call.ask state))) →
    ∃ replies, (runAll (call.pageByPage.map PagerCall.ask) state).1 = replies.map .ok ∧
      pages (runAll (call.pageByPage.map PagerCall.ask) state).2 =
        pages (lastState (call.ask state)) ∧
      call.Amounts (pages state) reply replies

/-! ## Pages in memory -/

namespace PageList

variable {stored written : List Page} {index : PageIndex} {position : Nat}

/-- The index after one that names a position names the next position. -/
theorem position_next (known : PageIndex.position index = .ok position)
    (room : position + 1 < Word.signedLimit) :
    PageIndex.position (index + 1) = .ok (position + 1) := by
  simp only [PageIndex.position] at known ⊢
  split at known
  · contradiction
  · injection known with known
    have one : (1 : Int64).toInt = 1 := rfl
    have next : (index + 1).toInt = position + 1 := by
      simp only [Word.signedLimit] at room
      rw [Int64.toInt_add, one, Int.bmod_eq_of_le (by omega) (by omega)]
      omega
    rw [next, if_neg (by omega)]
    exact congrArg Except.ok (by omega)

theorem index_succ (index : PageIndex) (offset : Nat) :
    index + Int64.ofNat (offset + 1) = index + 1 + Int64.ofNat offset := by
  rw [Nat.add_comm, Int64.ofNat_add, Int64.add_assoc]
  rfl

theorem nextIndex_snoc (stored : List Page) (page : Page) :
    nextIndex (stored ++ [page]) = nextIndex stored + 1 := by
  rw [nextIndex, List.length_append, Int64.ofNat_add]
  rfl

theorem length_splice (reachable : position ≤ stored.length) :
    (Memory.splice stored position written).length =
      max stored.length (position + written.length) := by
  simp only [Memory.splice, List.length_append, List.length_take, List.length_drop]
  omega

theorem splice_cons (reachable : position ≤ stored.length) (page : Page) :
    Memory.splice (Memory.splice stored position [page]) (position + 1) written =
      Memory.splice stored position (page :: written) := by
  have front : (stored.take position ++ [page]).length = position + 1 := by
    rw [List.length_append, List.length_take, Nat.min_eq_left reachable]
    rfl
  have back : position + 1 + written.length = (stored.take position ++ [page]).length +
      written.length := by rw [front]
  simp only [Memory.splice]
  rw [List.take_left' front, back, List.drop_length_add_append, List.drop_drop,
    List.append_assoc, List.append_assoc, List.append_assoc, List.length_singleton,
    List.length_cons, List.singleton_append, List.cons_append,
    show position + 1 + written.length = position + (written.length + 1) by omega]

/-- Pages that are read are a part of the memory, which stays as it is. -/
theorem readPages_ends (start : PageIndex) (amount : Nat) (stored : List Page) :
    Ends (Pager.readPages start amount (⟨stored⟩ : Memory))
      (fun read after => after = ⟨stored⟩ ∧ ∃ position, PageIndex.position start = .ok position ∧
        position + amount ≤ stored.length ∧ read = (stored.drop position).take amount)
      (fun _ after => after = ⟨stored⟩) := by
  cases known : PageIndex.position start with
  | error error =>
      have fails : Pager.readPages start amount (⟨stored⟩ : Memory) = .error error ⟨stored⟩ :=
        unknown_bind known _
      rw [fails]
      rfl
  | ok position =>
      rw [readPages_eq stored known amount]
      split
      next outside => rfl
      next inside => exact ⟨rfl, position, rfl, by omega, rfl⟩

/-- Pages that are written replace those at their position, and may reach beyond the end of the
memory. -/
theorem writePages_ends (written : List Page) (start : Option PageIndex) (stored : List Page) :
    Ends (Pager.writePages written start (⟨stored⟩ : Memory))
      (fun first after => first = start.getD (nextIndex stored) ∧
        ∃ position, position ≤ stored.length ∧ after = ⟨Memory.splice stored position written⟩ ∧
          match start with
          | some index => PageIndex.position index = .ok position
          | none => position = stored.length)
      (fun _ after => after = ⟨stored⟩) := by
  cases start with
  | none =>
      by_cases room : stored.length < Word.signedLimit
      · rw [appendPages_eq written room]
        exact ⟨rfl, stored.length, Nat.le_refl _, rfl, rfl⟩
      · rcases appendPages_full written (Nat.le_of_not_lt room) with ⟨error, fails⟩
        rw [fails]
        rfl
  | some index =>
      cases known : PageIndex.position index with
      | error error =>
          have fails : Pager.writePages written (some index) (⟨stored⟩ : Memory) =
              .error error ⟨stored⟩ := unknown_bind known _
          rw [fails]
          rfl
      | ok position =>
          by_cases reachable : position ≤ stored.length
          · rw [writePages_eq stored written known reachable]
            exact ⟨rfl, position, reachable, rfl, known⟩
          · rw [writePages_outside written known (Nat.lt_of_not_le reachable)]
            rfl

/-- Pages read one by one are those that are read together. -/
theorem readEach_eq (known : PageIndex.position index = .ok position) (amount : Nat)
    (inside : position + amount ≤ stored.length) (room : Roomy stored) :
    runAll ((PagerCall.read index amount).pageByPage.map PagerCall.ask) (⟨stored⟩ : Memory) =
      (((stored.drop position).take amount).map fun page => .ok (.pages [page]), ⟨stored⟩) := by
  simp only [PagerCall.pageByPage]
  induction amount generalizing index position with
  | zero => rfl
  | succ more ih =>
      have there : position < stored.length := by omega
      have read := readPages_eq stored known 1
      rw [if_neg (by omega), List.drop_eq_getElem_cons there] at read
      have asked : PagerCall.ask (.read index 1) (⟨stored⟩ : Memory) =
          .ok (.pages [stored[position]]) ⟨stored⟩ := bind_eq_of_ok read _
      have rest := ih (position_next known (by simp only [Roomy] at room; omega)) (by omega)
      have shifted : ((fun offset => PagerCall.read (index + Int64.ofNat offset) 1) ∘ Nat.succ) =
          fun offset => PagerCall.read (index + 1 + Int64.ofNat offset) 1 := by
        funext offset
        exact congrArg (PagerCall.read · 1) (index_succ index offset)
      rw [List.range_succ_eq_map, List.map_cons, List.map_map, shifted]
      rw [List.map_cons]
      have first : index + Int64.ofNat 0 = index := Int64.add_zero index
      rw [first, runAll_cons_ok asked, rest, List.drop_eq_getElem_cons there]
      rfl

/-- Pages written one by one end up as they do together. -/
theorem writeEach_eq (known : PageIndex.position index = .ok position) (written : List Page)
    (reachable : position ≤ stored.length) (room : position + written.length < Word.signedLimit) :
    runAll ((PagerCall.write written (some index)).pageByPage.map PagerCall.ask)
        (⟨stored⟩ : Memory) =
      ((List.range written.length).map fun offset => .ok (.first (index + Int64.ofNat offset)),
        ⟨Memory.splice stored position written⟩) := by
  simp only [PagerCall.pageByPage]
  induction written generalizing index position stored with
  | nil => simp [runAll, Memory.splice]
  | cons page rest ih =>
      rw [List.length_cons] at room
      have asked : PagerCall.ask (.write [page] (some index)) (⟨stored⟩ : Memory) =
          .ok (.first index) ⟨Memory.splice stored position [page]⟩ :=
        bind_eq_of_ok (writePages_eq stored [page] known reachable) _
      have longer : position + 1 ≤ (Memory.splice stored position [page]).length := by
        rw [length_splice reachable]
        exact Nat.le_max_right ..
      have others := ih (position_next known (by omega)) longer (by omega)
      have first : index + Int64.ofNat 0 = index := Int64.add_zero index
      rw [List.mapIdx_cons, List.map_cons, first, runAll_cons_ok asked, List.length_cons,
        List.range_succ_eq_map, List.map_cons, List.map_map, first]
      simp only [index_succ, Function.comp_def, Nat.succ_eq_add_one]
      rw [others, splice_cons reachable]

/-- Pages appended one by one take the indices that follow, and end up behind the others in their
order. -/
theorem appendEach_eq (written : List Page)
    (room : stored.length + written.length < Word.signedLimit) :
    runAll ((PagerCall.write written none).pageByPage.map PagerCall.ask) (⟨stored⟩ : Memory) =
      ((List.range written.length).map fun offset =>
        .ok (.first (nextIndex stored + Int64.ofNat offset)), ⟨stored ++ written⟩) := by
  simp only [PagerCall.pageByPage]
  induction written generalizing stored with
  | nil => simp [runAll]
  | cons page rest ih =>
      rw [List.length_cons] at room
      have asked : PagerCall.ask (.write [page] none) (⟨stored⟩ : Memory) =
          .ok (.first (nextIndex stored)) ⟨stored ++ [page]⟩ :=
        bind_eq_of_ok (appendPage_eq (by omega)) _
      have shorter : (stored ++ [page]).length + rest.length < Word.signedLimit := by
        simp
        omega
      have others := ih shorter
      have first : nextIndex stored + Int64.ofNat 0 = nextIndex stored := Int64.add_zero _
      rw [List.map_cons, List.map_cons, runAll_cons_ok asked, others, List.length_cons,
        List.range_succ_eq_map, List.map_cons, List.map_map, first]
      simp only [nextIndex_snoc, index_succ, Function.comp_def, Nat.succ_eq_add_one]
      rw [List.append_assoc, List.singleton_append]

theorem readOne_eq {page : Page} (fetched : fetch stored index = some page) :
    PagerCall.ask (.read index 1) (⟨stored⟩ : Memory) = .ok (.pages [page]) ⟨stored⟩ := by
  rcases fetch_eq_some.mp fetched with ⟨_, found⟩
  rcases List.getElem?_eq_some_iff.mp found with ⟨inside, rfl⟩
  have read := readPages_eq stored (position_eq fetched) 1
  rw [if_neg (by omega), List.drop_eq_getElem_cons inside] at read
  exact bind_eq_of_ok read _

/-- An index without a page is negative or too large, and the error says which. -/
theorem missing_cases (missing : fetch stored index = none) :
    (PageIndex.position index = .error (.invalidIndex index) ∧
        PagerError.missing index stored.length = .invalidIndex index) ∨
      (PageIndex.position index = .ok index.toInt.toNat ∧ 0 ≤ index.toInt ∧
        stored.length ≤ index.toInt.toNat ∧
        PagerError.missing index stored.length = .outOfBounds index stored.length) := by
  rcases fetch_eq_none.mp missing with negative | outside
  · exact Or.inl ⟨if_pos negative, if_pos negative⟩
  · have nonnegative : ¬index.toInt < 0 := by omega
    exact Or.inr ⟨if_neg nonnegative, by omega, by omega, if_neg nonnegative⟩

theorem readOne_missing (missing : fetch stored index = none) :
    PagerCall.ask (.read index 1) (⟨stored⟩ : Memory) =
      .error (.missing index stored.length) ⟨stored⟩ := by
  rcases missing_cases missing with ⟨unknown, error_eq⟩ | ⟨known, _, outside, error_eq⟩
  · rw [error_eq]
    exact bind_eq_of_error (unknown_bind unknown _) _
  · have read := readPages_eq stored known 1
    rw [if_pos (by omega)] at read
    rw [error_eq]
    exact bind_eq_of_error read _

theorem writeOne_eq {page old : Page} (fetched : fetch stored index = some old) :
    PagerCall.ask (.write [page] (some index)) (⟨stored⟩ : Memory) =
      .ok (.first index) ⟨store stored index page⟩ := by
  have inside := position_lt fetched
  have written := writePages_eq stored [page] (position_eq fetched) (by omega)
  rw [splice_there fetched] at written
  exact bind_eq_of_ok written _

theorem writeOne_end {start : Option PageIndex} (page : Page) (room : Roomy stored)
    (atEnd : start = none ∨ start = some (nextIndex stored)) :
    PagerCall.ask (.write [page] start) (⟨stored⟩ : Memory) =
      .ok (.first (nextIndex stored)) ⟨stored ++ [page]⟩ := by
  rcases atEnd with rfl | rfl
  · exact bind_eq_of_ok (appendPage_eq room) _
  · have known : PageIndex.position (nextIndex stored) = .ok stored.length := by
      rw [PageIndex.position, toInt_nextIndex room, if_neg (by omega)]
      rfl
    have written := writePages_eq stored [page] known (Nat.le_refl _)
    rw [splice_end] at written
    exact bind_eq_of_ok written _

/-- A page that is neither there nor the next one cannot be written. -/
theorem writeOne_missing (page : Page) (room : Roomy stored) (missing : fetch stored index = none)
    (elsewhere : index ≠ nextIndex stored) :
    PagerCall.ask (.write [page] (some index)) (⟨stored⟩ : Memory) =
      .error (.missing index stored.length) ⟨stored⟩ := by
  rcases missing_cases missing with ⟨unknown, error_eq⟩ | ⟨known, nonnegative, outside, error_eq⟩
  · rw [error_eq]
    exact bind_eq_of_error (unknown_bind unknown _) _
  · have past : stored.length ≠ index.toInt.toNat := by
      intro same
      apply elsewhere
      apply Int64.toInt_inj.mp
      rw [toInt_nextIndex room]
      omega
    rw [error_eq]
    exact bind_eq_of_error (writePages_outside [page] known (by omega)) _

end PageList

namespace PagerCall

variable {stored : List Page}

/-- No call takes pages away. -/
theorem ask_memory_ends (call : PagerCall) (stored : List Page) :
    Ends (call.ask (⟨stored⟩ : Memory)) (fun _ after => stored.length ≤ after.pages.length)
      (fun _ after => after = ⟨stored⟩) := by
  cases call with
  | read start amount =>
      apply Ends.bind (PageList.readPages_ends start amount stored)
      rintro read _ ⟨rfl, _⟩
      exact Nat.le_refl _
  | write written start =>
      apply Ends.bind (PageList.writePages_ends written start stored)
      rintro first _ ⟨_, position, reachable, rfl, _⟩
      change stored.length ≤ (Memory.splice stored position written).length
      rw [PageList.length_splice reachable]
      exact Nat.le_max_left ..
  | sync => exact Nat.le_refl _
  | pageCount => exact Nat.le_refl _

theorem grows_memory (call : PagerCall) (memory : Memory) :
    memory.pages.length ≤ (lastState (call.ask memory)).pages.length := by
  have ends := call.ask_memory_ends memory.pages
  revert ends
  cases call.ask memory with
  | ok reply after => exact id
  | error error after => exact fun same => Nat.le_of_eq (congrArg (·.pages.length) same.symm)

/-- In memory, a call for several pages does what calls for one page after the other do. -/
theorem ask_memory_pageByPage (call : PagerCall) (stored : List Page) (room : Roomy stored) :
    Ends (call.ask (⟨stored⟩ : Memory))
      (fun reply after => Roomy after.pages → ∃ replies,
        runAll (call.pageByPage.map ask) (⟨stored⟩ : Memory) = (replies.map .ok, after) ∧
          call.Amounts stored reply replies)
      (fun _ _ => True) := by
  cases call with
  | read start amount =>
      apply Ends.bind (Ends.mono (PageList.readPages_ends start amount stored)
        (fun _ _ => id) fun _ _ _ => trivial)
      rintro read _ ⟨rfl, position, known, inside, rfl⟩ _
      refine ⟨((stored.drop position).take amount).map fun page => .pages [page], ?_, _, rfl, rfl⟩
      rw [PageList.readEach_eq known amount inside room, List.map_map]
      rfl
  | write written start =>
      apply Ends.bind (Ends.mono (PageList.writePages_ends written start stored)
        (fun _ _ => id) fun _ _ _ => trivial)
      rintro first _ ⟨rfl, position, reachable, rfl, known⟩ roomAfter
      refine ⟨_, ?_, _, rfl, rfl, rfl⟩
      simp only [Roomy, PageList.length_splice reachable] at roomAfter
      rw [List.map_map]
      cases start with
      | some index => exact PageList.writeEach_eq known written reachable (by omega)
      | none =>
          rw [PageList.appendEach_eq written (by omega), known]
          simp [Memory.splice]
  | sync => exact fun _ => ⟨[.done], rfl, rfl⟩
  | pageCount => exact fun _ => ⟨[.count stored.length], rfl, rfl⟩

end PagerCall

/-- A memory with room acts on its pages as on an array. -/
theorem Memory.isPageArray (memory : Memory) (room : Roomy memory.pages) : IsPageArray memory where
  reads index page fetched := by
    rw [PagerCall.Results, show PagerCall.ask _ memory = _ from PageList.readOne_eq fetched]
    exact ⟨rfl, rfl⟩
  readsMissing index missing := by
    rw [PagerCall.Results, show PagerCall.ask _ memory = _ from PageList.readOne_missing missing]
    exact ⟨rfl, rfl⟩
  overwrites index old page fetched := by
    rw [PagerCall.Results, show PagerCall.ask _ memory = _ from PageList.writeOne_eq fetched]
    exact ⟨rfl, rfl⟩
  appends start page atEnd := by
    rw [PagerCall.Results, show PagerCall.ask _ memory = _ from
      PageList.writeOne_end page room atEnd]
    exact ⟨rfl, rfl⟩
  refuses index page missing elsewhere := by
    rw [PagerCall.Results, show PagerCall.ask _ memory = _ from
      PageList.writeOne_missing page room missing elsewhere]
    exact ⟨rfl, rfl⟩
  counts := ⟨rfl, rfl⟩
  syncs := ⟨rfl, rfl⟩
  grows call := call.grows_memory memory
  failing call error := by
    have ends := call.ask_memory_ends memory.pages
    revert ends
    cases call.ask memory with
    | ok reply after => exact fun _ given => nomatch given
    | error error after => exact fun same _ => congrArg Memory.pages same
  pageByPage call reply := by
    have ends := call.ask_memory_pageByPage memory.pages room
    revert ends
    cases call.ask memory with
    | error error after => exact fun _ given => nomatch given
    | ok given after =>
        rintro parts ⟨⟩ roomAfter
        rcases parts roomAfter with ⟨replies, runs, amounts⟩
        exact ⟨replies, congrArg Prod.fst runs, congrArg (·.2.pages) runs, amounts⟩

/-! ## Calm pagers -/

section

variable [Pager σ] [AtomicPager σ]

/-- A pager is calm, and keeps the pages that are in memory. -/
structure Alike (state : σ) (memory : Memory) : Prop where
  calm : Calm state
  pages_eq : pages state = memory.pages

theorem PagerCall.ask_tracks (call : PagerCall) (state : σ) (room : Roomy (pages state)) :
    Tracks pages Calm call.ask call.ask state := by
  cases call with
  | read start amount => exact (AtomicPager.readPages_tracks start amount state).bind_pure _
  | write written start =>
      cases start with
      | some index => exact (AtomicPager.writePages_tracks written index state).bind_pure _
      | none => exact (AtomicPager.appendPages_tracks written state room).bind_pure _
  | sync => exact (AtomicPager.sync_tracks state).bind_pure fun _ => PagerReply.done
  | pageCount => exact (AtomicPager.pageCount_tracks state).bind_pure _

namespace Alike

variable {state : σ} {memory : Memory}

/-- A call on a calm pager ends as the same call on pages in memory. -/
theorem ask (alike : Alike state memory) (room : Roomy memory.pages) (call : PagerCall) :
    outcome (call.ask state) = outcome (call.ask memory) ∧
      Alike (lastState (call.ask state)) (lastState (call.ask memory)) := by
  have tracks := call.ask_tracks state (alike.pages_eq ▸ room)
  simp only [Tracks] at tracks
  rw [alike.pages_eq] at tracks
  revert tracks
  cases call.ask state with
  | ok reply after =>
      rintro ⟨inMemory, calm⟩
      rw [show call.ask memory = _ from inMemory]
      exact ⟨rfl, calm alike.calm, rfl⟩
  | error error after =>
      rintro ⟨unchanged, calm⟩
      rcases calm alike.calm with ⟨calmAfter, inMemory⟩
      rw [show call.ask memory = _ from inMemory]
      exact ⟨rfl, calmAfter, unchanged⟩

theorem roomy_of_later (call : PagerCall) (memory : Memory)
    (room : Roomy (lastState (call.ask memory)).pages) : Roomy memory.pages := by
  exact Nat.lt_of_le_of_lt (call.grows_memory memory) room

theorem askAll (alike : Alike state memory) (calls : List PagerCall)
    (room : Roomy (runAll (calls.map PagerCall.ask) memory).2.pages) :
    (runAll (calls.map PagerCall.ask) state).1 = (runAll (calls.map PagerCall.ask) memory).1 ∧
      Alike (runAll (calls.map PagerCall.ask) state).2
        (runAll (calls.map PagerCall.ask) memory).2 := by
  apply runAll_agrees Alike fun memory => Roomy memory.pages
  · exact roomy_of_later
  · exact fun call state memory alike room => alike.ask room call
  · exact alike
  · exact room

theorem results (alike : Alike state memory) (room : Roomy memory.pages) {call : PagerCall}
    {given : Except PagerError PagerReply} {later : List Page}
    (inMemory : call.Results memory given later) : call.Results state given later := by
  rcases alike.ask room call with ⟨sameOutcome, alikeAfter⟩
  exact ⟨sameOutcome.trans inMemory.1, alikeAfter.pages_eq.trans inMemory.2⟩

end Alike

/-- A calm pager that keeps a list of pages is an array of pages. -/
theorem isPageArray_of_calm {state : σ} (calm : Calm state) (room : Roomy (pages state)) :
    IsPageArray state := by
  have alike : Alike state ⟨pages state⟩ := ⟨calm, rfl⟩
  have array := Memory.isPageArray ⟨pages state⟩ room
  have after := alike.ask room
  exact {
    reads := fun index page fetched => alike.results room (array.reads index page fetched)
    readsMissing := fun index missing => alike.results room (array.readsMissing index missing)
    overwrites := fun index old page fetched =>
      alike.results room (array.overwrites index old page fetched)
    appends := fun start page atEnd => alike.results room (array.appends start page atEnd)
    refuses := fun index page missing elsewhere =>
      alike.results room (array.refuses index page missing elsewhere)
    counts := alike.results room array.counts
    syncs := alike.results room array.syncs
    grows := fun call => by
      rw [(after call).2.pages_eq]
      exact array.grows call
    failing := fun call error failed => by
      rw [(after call).1] at failed
      rw [(after call).2.pages_eq]
      exact array.failing call error failed
    pageByPage := fun call reply given roomAfter => by
      rw [(after call).1] at given
      rw [(after call).2.pages_eq] at roomAfter ⊢
      rcases array.pageByPage call reply given roomAfter with ⟨replies, runs, later_eq, amounts⟩
      have roomLast : Roomy (runAll (call.pageByPage.map PagerCall.ask)
          (⟨pages state⟩ : Memory)).2.pages :=
        (congrArg Roomy later_eq).mpr roomAfter
      rcases alike.askAll call.pageByPage roomLast with ⟨same, alikeLast⟩
      exact ⟨replies, same.trans runs, alikeLast.pages_eq.trans later_eq, amounts⟩ }

end

end PagedMap
