import PagedMap.Pager.PageFile
import PagedMap.Proofs.Pager.Atomic
import PagedMap.Proofs.Storage.ByteArrays

/-!
# Pages in a storage that behaves as a byte array

The bytes of a storage are pages one after the other, and perhaps a rest that is no whole page.
Reading and writing pages by their offset is reading and writing a list of pages, so a pager on such
a storage keeps a list of pages.
-/

namespace PagedMap.PageFile

/-! ## Bytes as pages -/

section Bytes

variable {pages written : List Page} {bytes rest : Bytes} {position : Nat}

/-- The first pages in bytes, so many as are asked for. -/
def pagesWithin : Nat → Bytes → List Page
  | 0, _ => []
  | more + 1, bytes => Buffer.ofBytes pageSize bytes :: pagesWithin more (bytes.drop pageSize)

/-- The whole pages in bytes. -/
def pagesIn (bytes : Bytes) : List Page := pagesWithin (bytes.length / pageSize) bytes

/-- The bytes of pages one after the other. -/
def bytesOf (pages : List Page) : Bytes := pages.flatMap Buffer.bytes

@[simp]
theorem length_bytesOf (pages : List Page) : (bytesOf pages).length = pages.length * pageSize := by
  induction pages with
  | nil => rfl
  | cons page rest ih =>
      have size := page.length_bytes
      simp only [bytesOf, List.flatMap_cons, List.length_append, List.length_cons] at ih ⊢
      rw [ih, size, Nat.succ_mul, Nat.add_comm]

theorem bytesOf_append (front back : List Page) :
    bytesOf (front ++ back) = bytesOf front ++ bytesOf back :=
  List.flatMap_append

theorem ofBytes_page (page : Page) (rest : Bytes) :
    Buffer.ofBytes pageSize (page.bytes ++ rest) = page := by
  have size := page.length_bytes
  apply Buffer.ext
  have none_missing : pageSize - (page.bytes ++ rest).length = 0 := by
    rw [List.length_append]
    omega
  change (page.bytes ++ rest).take pageSize ++ List.replicate _ 0 = page.bytes
  rw [none_missing, List.replicate_zero, List.append_nil, List.take_left' size]

theorem length_pagesWithin (amount : Nat) (bytes : Bytes) :
    (pagesWithin amount bytes).length = amount := by
  induction amount generalizing bytes with
  | zero => rfl
  | succ more ih => rw [pagesWithin, List.length_cons, ih]

/-- Pages written one after the other are the pages in their bytes. -/
theorem pagesIn_eq (short : rest.length < pageSize) : pagesIn (bytesOf pages ++ rest) = pages := by
  have amount : (bytesOf pages ++ rest).length / pageSize = pages.length := by
    rw [List.length_append, length_bytesOf, Nat.mul_comm,
      Nat.mul_add_div (by decide), Nat.div_eq_of_lt short, Nat.add_zero]
  rw [pagesIn, amount]
  clear amount
  induction pages with
  | nil => rfl
  | cons page others ih =>
      have joined : bytesOf (page :: others) ++ rest = page.bytes ++ (bytesOf others ++ rest) :=
        List.append_assoc ..
      rw [List.length_cons, pagesWithin, joined, ofBytes_page,
        List.drop_left' page.length_bytes, ih]

/-- Bytes are whole pages and less than one page more. -/
theorem exists_rest (bytes : Bytes) :
    ∃ rest, rest.length < pageSize ∧ bytes = bytesOf (pagesIn bytes) ++ rest := by
  have whole : ∀ amount bytes, amount * pageSize ≤ List.length bytes →
      bytes.take (amount * pageSize) = bytesOf (pagesWithin amount bytes) := by
    intro amount
    induction amount with
    | zero =>
        intro bytes _
        rw [Nat.zero_mul]
        rfl
    | succ more ih =>
        intro bytes enough
        rw [Nat.succ_mul] at enough
        have others := ih (bytes.drop pageSize) (by rw [List.length_drop]; omega)
        have first : (Buffer.ofBytes pageSize bytes).bytes = bytes.take pageSize := by
          have none_missing : pageSize - bytes.length = 0 := by omega
          change bytes.take pageSize ++ List.replicate _ 0 = _
          rw [none_missing, List.replicate_zero, List.append_nil]
        change _ = (Buffer.ofBytes pageSize bytes).bytes ++ bytesOf (pagesWithin more _)
        rw [first, ← others, Nat.succ_mul, Nat.add_comm, List.take_add]
  refine ⟨bytes.drop (bytes.length / pageSize * pageSize), ?_, ?_⟩
  · rw [List.length_drop]
    have := Nat.mod_lt bytes.length (show 0 < pageSize by decide)
    have := Nat.div_add_mod' bytes.length pageSize
    omega
  · have taken := whole (bytes.length / pageSize) bytes (Nat.div_mul_le_self ..)
    rw [pagesIn, ← taken, List.take_append_drop]

theorem length_pagesIn (bytes : Bytes) : (pagesIn bytes).length = bytes.length / pageSize :=
  length_pagesWithin ..

theorem take_bytesOf (inside : position ≤ pages.length) :
    (bytesOf pages ++ rest).take (position * pageSize) = bytesOf (pages.take position) := by
  have cut : bytesOf pages = bytesOf (pages.take position) ++ bytesOf (pages.drop position) := by
    rw [← bytesOf_append, List.take_append_drop]
  rw [cut, List.append_assoc]
  apply List.take_left'
  rw [length_bytesOf, List.length_take, Nat.min_eq_left inside]

theorem drop_bytesOf (inside : position ≤ pages.length) :
    (bytesOf pages ++ rest).drop (position * pageSize) = bytesOf (pages.drop position) ++ rest := by
  have cut : bytesOf pages = bytesOf (pages.take position) ++ bytesOf (pages.drop position) := by
    rw [← bytesOf_append, List.take_append_drop]
  rw [cut, List.append_assoc]
  apply List.drop_left'
  rw [length_bytesOf, List.length_take, Nat.min_eq_left inside]

/-- The bytes at the place of a page make this page. -/
theorem ofBytes_slice (inside : position < (pagesIn bytes).length) :
    (position * pageSize + pageSize ≤ bytes.length) ∧
    some (Buffer.ofBytes pageSize ((bytes.drop (position * pageSize)).take pageSize)) =
      (pagesIn bytes)[position]? := by
  rcases exists_rest bytes with ⟨rest, short, bytes_eq⟩
  generalize pagesIn bytes = pages at inside bytes_eq
  subst bytes_eq
  constructor
  · rw [List.length_append, length_bytesOf]
    have := Nat.mul_le_mul_right pageSize (Nat.succ_le_of_lt inside)
    rw [Nat.succ_mul] at this
    omega
  · rw [drop_bytesOf (Nat.le_of_lt inside), List.drop_eq_getElem_cons inside,
      List.getElem?_eq_getElem inside]
    apply congrArg some
    have page := ofBytes_page pages[position] []
    rw [List.append_nil] at page
    change Buffer.ofBytes pageSize ((pages[position].bytes ++ bytesOf _ ++ rest).take pageSize) = _
    rw [List.append_assoc, List.take_left' (Buffer.length_bytes _), page]

/-- Pages written at the place of a page replace those there, and may go past the last one. -/
theorem pagesIn_written (written : List Page) (reachable : position ≤ (pagesIn bytes).length) :
    pagesIn (bytes.take (position * pageSize) ++ bytesOf written ++
        bytes.drop (position * pageSize + (bytesOf written).length)) =
      Memory.splice (pagesIn bytes) position written := by
  rcases exists_rest bytes with ⟨rest, short, bytes_eq⟩
  generalize pagesIn bytes = pages at reachable bytes_eq
  subst bytes_eq
  rw [take_bytesOf reachable, length_bytesOf, ← Nat.add_mul, Memory.splice]
  by_cases inside : position + written.length ≤ pages.length
  · rw [drop_bytesOf inside, ← List.append_assoc, ← bytesOf_append, ← bytesOf_append]
    exact pagesIn_eq short
  · have past : (bytesOf pages ++ rest).length ≤ (position + written.length) * pageSize := by
      have := Nat.mul_le_mul_right pageSize (Nat.lt_of_not_le inside)
      rw [Nat.succ_mul] at this
      rw [List.length_append, length_bytesOf]
      omega
    have whole : pagesIn (bytesOf (pages.take position ++ written) ++ []) =
        pages.take position ++ written :=
      pagesIn_eq (by decide)
    rw [List.drop_eq_nil_of_le past, List.drop_eq_nil_of_le (Nat.le_of_not_le inside),
      ← bytesOf_append, whole, List.append_nil]

end Bytes

/-! ## The operations of the pager -/

variable {σ α : Type} [Storage σ] [ByteArrayStorage σ] {position : Nat}

/-- The pages that the storage keeps. -/
def pages (file : PageFile σ) : List Page :=
  pagesIn (Content.toList (ByteArrayStorage.content file.storage))

/-- The storage will not fail. -/
def Calm (file : PageFile σ) : Prop := ByteArrayStorage.Calm file.storage

/-- The storage has not changed. -/
structure Kept (before after : PageFile σ) : Prop where
  content_eq : ByteArrayStorage.content after.storage = ByteArrayStorage.content before.storage
  calm : before.Calm → after.Calm

namespace Kept

variable {before middle after : PageFile σ}

theorem refl (file : PageFile σ) : Kept file file := ⟨rfl, id⟩

theorem trans (first : Kept before middle) (second : Kept middle after) : Kept before after :=
  ⟨second.content_eq.trans first.content_eq, fun calm => second.calm (first.calm calm)⟩

theorem pages_eq (kept : Kept before after) : after.pages = before.pages := by
  simp only [pages]
  rw [kept.content_eq]

end Kept

/-- The storage failed without effect, which it does not do if it is calm. -/
def Refused (before : PageFile σ) (_ : PagerError) (after : PageFile σ) : Prop :=
  Kept before after ∧ ¬ before.Calm

theorem Kept.refused {before middle after : PageFile σ} {error : PagerError}
    (first : Kept before middle) (refused : Refused middle error after) :
    Refused before error after :=
  ⟨first.trans refused.1, fun calm => refused.2 (first.calm calm)⟩

theorem refused_of_stormy {file : PageFile σ} {after : σ} (error : PagerError)
    (content_eq : ByteArrayStorage.content after = ByteArrayStorage.content file.storage)
    (stormy : ¬ file.Calm) : Refused file error ⟨after⟩ :=
  ⟨⟨content_eq, fun calm => absurd calm stormy⟩, stormy⟩

omit [Storage σ] [ByteArrayStorage σ] in
theorem onStorage_ends {operation : EStateM StorageError σ α} {file : PageFile σ}
    {post : α → PageFile σ → Prop} {broken : PagerError → PageFile σ → Prop}
    (ends : Ends (operation file.storage) (fun value storage => post value ⟨storage⟩)
      (fun error storage => broken (.storage error) ⟨storage⟩)) :
    Ends (onStorage operation file) post broken := by
  simp only [onStorage]
  revert ends
  cases operation file.storage with
  | ok value storage => exact id
  | error error storage => exact id

/-- The size of the storage tells the whole pages in it. -/
theorem count_ends (file : PageFile σ) :
    Ends (count file) (fun given after => given = file.pages.length ∧ Kept file after)
      (Refused file) := by
  have sized : Ends (onStorage Storage.size file)
      (fun size after => size = (ByteArrayStorage.content file.storage).size ∧ Kept file after)
      (Refused file) := by
    apply onStorage_ends
    apply Ends.mono (ByteArrayStorage.size_ends file.storage)
    · rintro size after ⟨rfl, content_eq, calm⟩
      exact ⟨rfl, content_eq, calm⟩
    · rintro error after ⟨content_eq, stormy⟩
      exact refused_of_stormy _ content_eq stormy
  apply Ends.bind sized
  rintro _ after ⟨rfl, kept⟩
  refine ⟨?_, kept⟩
  rw [pages, length_pagesIn, Content.length_toList]

omit [ByteArrayStorage σ] in
/-- Reads one page. -/
def readOne (position : Nat) : EStateM PagerError (PageFile σ) Page :=
  return Buffer.ofBytes pageSize (← onStorage (Storage.readAt (position * pageSize) pageSize))

/-- A page inside a file is read as it is, unless the storage fails. -/
theorem readOne_ends {file : PageFile σ} (inside : position < file.pages.length) :
    Ends (readOne position file)
      (fun page after => some page = file.pages[position]? ∧ Kept file after) (Refused file) := by
  rcases ofBytes_slice inside with ⟨there, slice_eq⟩
  rw [Content.length_toList] at there
  have read : Ends (onStorage (Storage.readAt (position * pageSize) pageSize) file)
      (fun bytes after => bytes = ((Content.toList (ByteArrayStorage.content file.storage)).drop
          (position * pageSize)).take pageSize ∧ Kept file after)
      (Refused file) := by
    apply onStorage_ends
    apply Ends.mono (ByteArrayStorage.readAt_ends _ _ file.storage)
    · rintro bytes after ⟨given, content_eq, calm⟩
      rw [Content.readAt?_eq there] at given
      injection given with given
      exact ⟨given.symm, content_eq, calm⟩
    · rintro error after ⟨content_eq, failed⟩
      have stormy : ¬ file.Calm := by
        intro calm
        rw [Content.readAt?_eq there] at failed
        cases (failed calm).2
      exact refused_of_stormy _ content_eq stormy
  apply Ends.bind read
  rintro _ after ⟨rfl, kept⟩
  exact ⟨slice_eq, kept⟩

theorem readEach_ends {file : PageFile σ} (positions : List Nat)
    (inside : ∀ position ∈ positions, position < file.pages.length) :
    Ends (positions.mapM readOne file)
      (fun given after => given.map some = positions.map (file.pages[·]?) ∧ Kept file after)
      (Refused file) := by
  induction positions generalizing file with
  | nil => exact ⟨rfl, Kept.refl file⟩
  | cons position rest ih =>
      rw [List.mapM_cons]
      apply Ends.bind (readOne_ends (inside position List.mem_cons_self))
      rintro page middle ⟨page_eq, kept⟩
      have insideRest : ∀ other ∈ rest, other < middle.pages.length := by
        intro other member
        rw [kept.pages_eq]
        exact inside other (List.mem_cons_of_mem _ member)
      apply Ends.bind (Ends.mono (ih insideRest) (fun _ _ => id) fun _ _ => kept.refused)
      rintro given after ⟨given_eq, keptAfter⟩
      refine ⟨?_, kept.trans keptAfter⟩
      rw [List.map_cons, List.map_cons, page_eq, given_eq, kept.pages_eq]

/-- A range of pages inside a file is read as it is, unless the storage fails. -/
theorem readFrom_ends {file : PageFile σ} {amount : Nat}
    (inside : position + amount ≤ file.pages.length) :
    Ends (readFrom position amount file)
      (fun given after => given = (file.pages.drop position).take amount ∧ Kept file after)
      (Refused file) := by
  let positions := (List.range amount).map (position + ·)
  have same : readFrom position amount file = positions.mapM readOne file := by
    rw [List.mapM_map]
    rfl
  have slice : ((file.pages.drop position).take amount).map some =
      positions.map (file.pages[·]?) := by
    apply List.ext_getElem
    · simp [positions]
      omega
    · intro offset inSlice _
      simp only [List.length_map, List.length_take, List.length_drop] at inSlice
      have there : position + offset < file.pages.length := by omega
      simp [positions, there]
  rw [same]
  apply Ends.mono (readEach_ends positions ?_)
  · rintro given after ⟨given_eq, kept⟩
    refine ⟨?_, kept⟩
    rw [← slice] at given_eq
    exact (List.map_inj_right fun _ _ => Option.some.inj).mp given_eq
  · intro error after refused
    exact refused
  · intro other member
    rcases List.mem_map.mp member with ⟨offset, inRange, rfl⟩
    have := List.mem_range.mp inRange
    omega

/-- Bytes of whole pages, written at a position, replace the pages from there on. -/
theorem write_ends {file : PageFile σ} (written : List Page)
    (reachable : position ≤ file.pages.length) :
    Ends (onStorage (Storage.writeAt (position * pageSize) (written.flatMap Buffer.bytes)) file)
      (fun _ after => after.pages = Memory.splice file.pages position written ∧
        (file.Calm → after.Calm)) (Refused file) := by
  apply onStorage_ends
  apply Ends.mono (ByteArrayStorage.writeAt_ends _ _ file.storage)
  · rintro _ after ⟨content_eq, calm⟩
    refine ⟨?_, calm⟩
    have inside : position * pageSize ≤ (ByteArrayStorage.content file.storage).size := by
      rw [pages, length_pagesIn, Content.length_toList] at reachable
      exact Nat.le_trans (Nat.mul_le_mul_right pageSize reachable) (Nat.div_mul_le_self ..)
    rw [pages, content_eq, Content.toList_writeAt inside]
    exact pagesIn_written written reachable
  · rintro error after ⟨content_eq, stormy⟩
    exact refused_of_stormy _ content_eq stormy

theorem lock_ends (file : PageFile σ) :
    Ends (onStorage Storage.lock file) (fun _ after => Kept file after) (Refused file) := by
  apply onStorage_ends
  apply Ends.mono (ByteArrayStorage.lock_ends file.storage)
  · rintro _ after ⟨content_eq, calm⟩
    exact ⟨content_eq, calm⟩
  · rintro error after ⟨content_eq, stormy⟩
    exact refused_of_stormy _ content_eq stormy

theorem sync_ends (file : PageFile σ) :
    Ends (onStorage Storage.sync file) (fun _ after => Kept file after) (Refused file) := by
  apply onStorage_ends
  apply Ends.mono (ByteArrayStorage.sync_ends file.storage)
  · rintro _ after ⟨content_eq, calm⟩
    exact ⟨content_eq, calm⟩
  · rintro error after ⟨content_eq, stormy⟩
    exact refused_of_stormy _ content_eq stormy

theorem Refused.tracked {file after : PageFile σ} {error : PagerError} {property : Prop}
    (refused : Refused file error after) :
    after.pages = file.pages ∧ (file.Calm → after.Calm ∧ property) :=
  ⟨refused.1.pages_eq, fun calm => absurd calm refused.2⟩

/-- Reading from a file gives the pages that a memory with the same pages gives. -/
theorem readPages_tracks (start : PageIndex) (amount : Nat) (file : PageFile σ) :
    Tracks pages Calm (Pager.readPages start amount) (Pager.readPages start amount) file := by
  cases known : PageIndex.position start with
  | error error =>
      have fails : Pager.readPages start amount file = .error error file :=
        PageList.unknown_bind known _
      simp only [Tracks]
      rw [fails]
      exact ⟨rfl, fun calm => ⟨calm, PageList.unknown_bind known _⟩⟩
  | ok position =>
      have inMemory := PageList.readPages_eq file.pages known amount
      simp only [Tracks]
      rw [inMemory]
      -- The file is counted first, and the count decides whether any page is read.
      have reads : Ends ((do
            let count ← count
            if position + amount > count then
              throw (.outOfBounds start count)
            readFrom position amount : EStateM PagerError (PageFile σ) (List Page)) file)
          (fun given after => position + amount ≤ file.pages.length ∧
            given = (file.pages.drop position).take amount ∧ Kept file after)
          (fun error after => Refused file error after ∨ (Kept file after ∧
            file.pages.length < position + amount ∧
            error = .outOfBounds start file.pages.length)) := by
        apply Ends.bind (Ends.mono (count_ends file) (fun _ _ => id) fun _ _ => Or.inl)
        rintro _ middle ⟨rfl, kept⟩
        by_cases outside : position + amount > file.pages.length
        · rw [if_pos outside]
          exact Or.inr ⟨kept, outside, rfl⟩
        · rw [if_neg outside]
          have inside : position + amount ≤ middle.pages.length := by
            rw [kept.pages_eq]
            exact Nat.le_of_not_lt outside
          apply Ends.mono (readFrom_ends inside)
          · rintro _ after ⟨rfl, keptAfter⟩
            rw [kept.pages_eq]
            exact ⟨Nat.le_of_not_lt outside, rfl, kept.trans keptAfter⟩
          · intro error after refused
            exact Or.inl (kept.refused refused)
      rw [show Pager.readPages start amount file = _ from PageList.position_bind known _]
      apply Ends.mono reads
      · rintro _ after ⟨inside, rfl, kept⟩
        rw [if_neg (Nat.not_lt.mpr inside), kept.pages_eq]
        exact ⟨rfl, kept.calm⟩
      · rintro error after (refused | ⟨kept, outside, rfl⟩)
        · exact refused.tracked
        · rw [if_pos outside]
          exact ⟨kept.pages_eq, fun calm => ⟨kept.calm calm, rfl⟩⟩

/-- The last steps of writing: the position is checked, and the pages are written there. -/
def place (written : List Page) (position count : Nat) :
    EStateM PagerError (PageFile σ) PageIndex := do
  if position > count then
    throw (.outOfBounds (← PageIndex.ofPosition position) count)
  onStorage (Storage.writeAt (position * pageSize) (written.flatMap Buffer.bytes))
  PageIndex.ofPosition position

/-- Where pages are to be placed past the end, the file is left as it is. -/
theorem place_ends {index : PageIndex} (written : List Page)
    (named : PageIndex.ofPosition position = .ok index) (file : PageFile σ) :
    Ends (place written position file.pages.length file)
      (fun given after => position ≤ file.pages.length ∧ given = index ∧
        after.pages = Memory.splice file.pages position written ∧ (file.Calm → after.Calm))
      (fun error after => Refused file error after ∨ (after = file ∧
        file.pages.length < position ∧ error = .outOfBounds index file.pages.length)) := by
  simp only [place]
  by_cases outside : position > file.pages.length
  · simp only [if_pos outside]
    rw [PageList.position_bind named]
    exact Or.inr ⟨rfl, outside, rfl⟩
  · simp only [if_neg outside]
    have reachable := Nat.le_of_not_lt outside
    apply Ends.bind (Ends.mono (write_ends written reachable) (fun _ _ => id) fun _ _ => Or.inl)
    rintro _ after ⟨pages_eq, calm⟩
    rw [named]
    exact ⟨reachable, rfl, pages_eq, calm⟩

/-- The first steps of writing: the lock is taken, and the pages are counted. -/
theorem prepared_ends {file : PageFile σ} {next : Nat → EStateM PagerError (PageFile σ) α}
    {post : α → PageFile σ → Prop} {broken : PagerError → PageFile σ → Prop}
    (refused : ∀ error after, Refused file error after → broken error after)
    (continues : ∀ after, Kept file after → Ends (next file.pages.length after) post broken) :
    Ends ((do onStorage Storage.lock; next (← count)) file) post broken := by
  apply Ends.bind (Ends.mono (lock_ends file) (fun _ _ => id) refused)
  rintro _ middle kept
  apply Ends.bind (Ends.mono (count_ends middle) (fun _ _ => id)
    fun error after fails => refused error after (kept.refused fails))
  rintro _ after ⟨rfl, keptAfter⟩
  rw [kept.pages_eq]
  exact continues after (kept.trans keptAfter)

/-- Writing to a file makes of its pages what writing to a memory makes. -/
theorem writePages_tracks (written : List Page) (index : PageIndex) (file : PageFile σ) :
    Tracks pages Calm (Pager.writePages written (some index))
      (Pager.writePages written (some index)) file := by
  apply prepared_ends
  · intro error after refused
    exact refused.tracked
  · intro middle kept
    change Ends ((liftM (PageIndex.position index) >>= fun position =>
      place written position file.pages.length) middle) _ _
    cases known : PageIndex.position index with
    | error error =>
        exact ⟨kept.pages_eq, fun calm => ⟨kept.calm calm, PageList.unknown_bind known _⟩⟩
    | ok position =>
        have named := PageList.ofPosition_position known
        have places := place_ends written named middle
        rw [kept.pages_eq] at places
        apply Ends.mono places
        · rintro _ after ⟨reachable, rfl, pages_eq, calm⟩
          rw [PageList.writePages_eq file.pages written known reachable, pages_eq]
          exact ⟨rfl, fun before => calm (kept.calm before)⟩
        · rintro error after (refused | ⟨rfl, outside, rfl⟩)
          · exact (kept.refused refused).tracked
          · rw [PageList.writePages_outside written known outside]
            exact ⟨kept.pages_eq, fun calm => ⟨kept.calm calm, rfl⟩⟩

/-- Appending to a file does to its pages what it does to a memory with the same ones. -/
theorem appendPages_tracks (written : List Page) (file : PageFile σ)
    (room : file.pages.length < Word.signedLimit) :
    Tracks pages Calm (Pager.writePages written none) (Pager.writePages written none) file := by
  simp only [Tracks]
  rw [PageList.appendPages_eq written room]
  apply prepared_ends
  · intro error after refused
    exact refused.tracked
  · intro middle kept
    have named := PageList.ofPosition_length room
    have places := place_ends written named middle
    rw [kept.pages_eq] at places
    apply Ends.mono places
    · rintro _ after ⟨_, rfl, pages_eq, calm⟩
      rw [pages_eq]
      exact ⟨rfl, fun before => calm (kept.calm before)⟩
    · rintro error after (refused | ⟨rfl, outside, rfl⟩)
      · exact (kept.refused refused).tracked
      · exact absurd outside (Nat.lt_irrefl _)

/-- With no more indices for pages appending fails, and those from before are still there. -/
theorem appendPages_full (written : List Page) (file : PageFile σ)
    (full : Word.signedLimit ≤ file.pages.length) :
    Ends (Pager.writePages written none file) (fun _ _ => False)
      (fun _ after => file.pages <+: after.pages ∧ (file.Calm → after.Calm)) := by
  apply prepared_ends
  · intro error after refused
    rw [refused.1.pages_eq]
    exact ⟨List.prefix_refl _, refused.1.calm⟩
  · intro middle kept
    have unnamed : PageIndex.ofPosition file.pages.length =
        .error (.outOfBounds Int64.maxValue file.pages.length) := if_neg (by omega)
    change Ends (place written file.pages.length file.pages.length middle) _ _
    simp only [place]
    simp only [if_neg (Nat.lt_irrefl file.pages.length)]
    have reachable : file.pages.length ≤ middle.pages.length :=
      Nat.le_of_eq (congrArg List.length kept.pages_eq.symm)
    apply Ends.bind (Ends.mono (write_ends written reachable) (fun _ _ => id) ?_)
    · rintro _ after ⟨pages_eq, calm⟩
      rw [unnamed]
      refine ⟨?_, fun before => calm (kept.calm before)⟩
      rw [pages_eq, kept.pages_eq]
      exact ⟨written, by simp [Memory.splice]⟩
    · intro error after refused
      rw [(kept.refused refused).1.pages_eq]
      exact ⟨List.prefix_refl _, (kept.refused refused).1.calm⟩

instance : AtomicPager (PageFile σ) where
  pages := pages
  Calm := Calm
  readPages_tracks := readPages_tracks
  writePages_tracks := writePages_tracks
  appendPages_tracks := appendPages_tracks
  appendPages_full := appendPages_full
  sync_tracks file := by
    apply Ends.mono (sync_ends file)
    · intro _ after kept
      rw [kept.pages_eq]
      exact ⟨rfl, kept.calm⟩
    · intro error after refused
      exact refused.tracked
  pageCount_tracks file := by
    apply Ends.mono (count_ends file)
    · rintro _ after ⟨rfl, kept⟩
      rw [kept.pages_eq]
      exact ⟨rfl, kept.calm⟩
    · intro error after refused
      exact refused.tracked

end PagedMap.PageFile
