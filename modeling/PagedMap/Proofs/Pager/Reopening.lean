import PagedMap.Pager.Memory
import PagedMap.Proofs.Pager.PageArrays
import PagedMap.Proofs.Pager.Preparing

/-!
# Pages in a storage and pages in memory

Opening a calm storage leaves exactly its whole pages. From then on, whatever is asked of the pager
on it and however often the storage is opened again, each answer is the one that the same pages in
memory would give, and the same pages are stored.
-/

namespace PagedMap

variable {σ : Type}

/-- What a pager goes through. -/
inductive PagerUse where
  | ask (call : PagerCall)
  /-- What the pages are kept in is opened again. -/
  | reopen

/-- A use of a pager, with what is done when it is opened again. -/
def PagerUse.perform [Pager σ] (reopened : SessionM σ PagerError Unit) :
    PagerUse → SessionM σ PagerError PagerReply
  | ask call => SessionM.onDevice call.ask
  | reopen => do
    reopened
    return .done

namespace PageFile

/-- Opens the storage of a pager again. -/
def reopen [Storage σ] : SessionM (PageFile σ) PagerError Unit := fun session =>
  match prepare ⟨session.device.storage, session.log⟩ with
  | .ok _ after => .ok () (onPages after)
  | .error failure after => .error failure (onPages after)

variable [Storage σ] [ByteArrayStorage σ]

/-- The bytes that a session's storage keeps. -/
def stored (session : Session σ) : Bytes :=
  Content.toList (ByteArrayStorage.content session.device)

theorem bytesOf_pagesIn (bytes : Bytes) :
    bytesOf (pagesIn bytes) = bytes.take (bytes.length / pageSize * pageSize) := by
  rcases exists_rest bytes with ⟨rest, short, bytes_eq⟩
  have whole : (bytesOf (pagesIn bytes)).length = bytes.length / pageSize * pageSize := by
    rw [length_bytesOf, length_pagesIn]
  have taken : (bytesOf (pagesIn bytes) ++ rest).take (bytes.length / pageSize * pageSize) =
      bytesOf (pagesIn bytes) := List.take_left' whole
  rw [← bytes_eq] at taken
  exact taken.symm

omit [Storage σ] [ByteArrayStorage σ] in
theorem onDevice_succeeds {α : Type} {operation : EStateM StorageError σ α} {session : Session σ}
    {post : α → σ → Prop} {broken : StorageError → σ → Prop}
    (ends : Ends (operation session.device) post broken) :
    Ends (SessionM.onDevice operation session) (fun value after => post value after.device)
      (fun _ _ => True) :=
  SessionM.onDevice_ends (ends.mono (fun _ _ => id) fun _ _ _ => trivial)

/-- Preparing a storage cuts off what is no whole page, and nothing else. -/
theorem prepare_trims (session : Session σ) :
    Ends (prepare session) (fun _ after => stored after = bytesOf (pagesIn (stored session)))
      (fun _ _ => True) := by
  simp only [prepare, bytesOf_pagesIn]
  apply SessionM.relabel_ends
  suffices ends : Ends (_ : EStateM.Result _ _ Unit) (fun _ after => stored after =
      (stored session).take ((stored session).length / pageSize * pageSize)) (fun _ _ => True) from
    ends.mono (fun _ _ => id) (by rintro (_ | _) _ <;> exact id)
  apply Ends.bind (onDevice_succeeds (ByteArrayStorage.size_ends session.device))
  rintro size sized ⟨size_eq, content_eq, _⟩
  have length_eq : (stored session).length = size := by rw [stored, Content.length_toList, size_eq]
  have whole : (stored session).length / pageSize * pageSize = size - size % pageSize := by
    have := Nat.div_add_mod' size pageSize
    rw [length_eq]
    omega
  rw [whole]
  split
  next torn =>
    have reported : Ends (SessionM.report (.tailTruncated (size % pageSize) size) sized)
        (fun _ after => after.device = sized.device)
        (fun (_ : Failure StorageError) _ => True) := rfl
    apply Ends.bind reported
    rintro _ warned warned_eq
    apply Ends.bind (onDevice_succeeds (ByteArrayStorage.truncate_ends _ warned.device))
    rintro _ cut ⟨cut_eq, _⟩
    apply Ends.mono (onDevice_succeeds (ByteArrayStorage.sync_ends cut.device)) _ fun _ _ => id
    rintro _ after ⟨synced_eq, _⟩
    -- What is cut off lies behind the last whole page.
    have inside : size - size % pageSize ≤ (ByteArrayStorage.content session.device).size := by
      omega
    rw [stored, synced_eq, cut_eq, warned_eq, content_eq, Content.toList_resize inside]
    rfl
  next even =>
    change stored sized = _
    rw [stored, content_eq, List.take_of_length_le (by omega)]
    rfl

theorem reopen_ends (session : Session (PageFile σ)) :
    Ends (reopen session)
      (fun _ after => after.device.pages = session.device.pages ∧
        (session.device.Calm → after.device.Calm))
      (fun _ _ => ¬ session.device.Calm) := by
  have prepared := prepare_ends (⟨session.device.storage, session.log⟩ : Session σ)
  simp only [reopen]
  revert prepared
  cases prepare (⟨session.device.storage, session.log⟩ : Session σ) with
  | ok _ after => exact fun same => ⟨same.pages_eq, same.calm⟩
  | error failure after => exact And.right

end PageFile

namespace Alike

/-- A use of a pager on a calm storage ends as the same use of pages in memory. -/
theorem perform [Storage σ] [ByteArrayStorage σ] {session : Session (PageFile σ)}
    {memory : Session Memory} (alike : Alike session.device memory.device)
    (room : Roomy memory.device.pages) (use : PagerUse) :
    outcome (use.perform PageFile.reopen session) = outcome (use.perform (pure ()) memory) ∧
      Alike (lastState (use.perform PageFile.reopen session)).device
        (lastState (use.perform (pure ()) memory)).device := by
  cases use with
  | ask call =>
      rcases alike.ask room call with ⟨sameOutcome, alikeAfter⟩
      simp only [PagerUse.perform, SessionM.onDevice]
      revert sameOutcome alikeAfter
      cases call.ask session.device <;> cases call.ask memory.device <;>
        simp +contextual [outcome, lastState]
  | reopen =>
      have ends := PageFile.reopen_ends session
      simp only [PagerUse.perform]
      rcases ends.exists_ok (fun _ _ stormy => stormy alike.calm) with
        ⟨_, after, reopened, pages_eq, calm⟩
      rw [bind_eq_of_ok reopened]
      exact ⟨rfl, calm alike.calm, pages_eq.trans alike.pages_eq⟩

theorem roomy_of_use (use : PagerUse) (memory : Session Memory)
    (room : Roomy (lastState (use.perform (pure ()) memory)).device.pages) :
    Roomy memory.device.pages := by
  cases use with
  | ask call =>
      apply roomy_of_later call
      simp only [PagerUse.perform, SessionM.onDevice] at room
      revert room
      cases call.ask memory.device <;> exact id
  | reopen => exact room

/-- By induction on the uses, a file and a memory stay alike, and answer alike. -/
theorem performAll [Storage σ] [ByteArrayStorage σ] {session : Session (PageFile σ)}
    {memory : Session Memory} (alike : Alike session.device memory.device) (uses : List PagerUse)
    (room : Roomy (runAll (uses.map (PagerUse.perform (pure ()))) memory).2.device.pages) :
    (runAll (uses.map (PagerUse.perform PageFile.reopen)) session).1 =
        (runAll (uses.map (PagerUse.perform (pure ()))) memory).1 ∧
      Alike (runAll (uses.map (PagerUse.perform PageFile.reopen)) session).2.device
        (runAll (uses.map (PagerUse.perform (pure ()))) memory).2.device := by
  apply runAll_agrees (fun (session : Session (PageFile σ)) (memory : Session Memory) =>
    Alike session.device memory.device) fun memory => Roomy memory.device.pages
  · exact roomy_of_use
  · exact fun use session memory alike room => alike.perform room use
  · exact alike
  · exact room

end Alike

/-- A storage is opened, and the pager on it is used. The storage then holds the whole pages that it
held, and nothing else; it answers as these pages in memory do, and the same pages are stored
afterwards. Both are arrays of pages. -/
theorem pageFile_agrees [Storage σ] [ByteArrayStorage σ] (session : Session σ)
    (calm : ByteArrayStorage.Calm session.device) (uses : List PagerUse)
    (room : Roomy (runAll (uses.map (PagerUse.perform (pure ())))
      (⟨⟨PageFile.pagesIn (PageFile.stored session)⟩, []⟩ : Session Memory)).2.device.pages) :
    ∃ opened : Session σ, PageFile.prepare session = .ok () opened ∧
      (let bytes := PageFile.stored session
       let inMemory := runAll (uses.map (PagerUse.perform (pure ())))
        (⟨⟨PageFile.pagesIn bytes⟩, []⟩ : Session Memory)
       let inFile := runAll (uses.map (PagerUse.perform PageFile.reopen)) (PageFile.onPages opened)
       PageFile.stored opened = bytes.take (bytes.length / pageSize * pageSize) ∧
        PageFile.stored opened = PageFile.bytesOf (PageFile.pagesIn bytes) ∧
        inFile.1 = inMemory.1 ∧ inFile.2.device.pages = inMemory.2.device.pages ∧
        IsPageArray inFile.2.device ∧ IsPageArray inMemory.2.device) := by
  have ends := (PageFile.prepare_ends session).and (PageFile.prepare_trims session)
  rcases ends.exists_ok (fun _ _ fails => fails.1.2 calm) with ⟨_, opened, opens, same, trimmed⟩
  have alike : Alike (PageFile.onPages opened).device
      (⟨PageFile.pagesIn (PageFile.stored session)⟩ : Memory) := ⟨same.calm calm, same.pages_eq⟩
  have agrees := alike.performAll uses room
  refine ⟨opened, opens, trimmed.trans (PageFile.bytesOf_pagesIn _), trimmed, agrees.1,
    agrees.2.pages_eq, isPageArray_of_calm agrees.2.calm ?_, Memory.isPageArray _ room⟩
  exact (congrArg Roomy agrees.2.pages_eq).mpr room

/-- A file that ends in the middle of a page loses the rest when it is opened. Then a page is
appended, a second one is written over its end, and the file is opened again. -/
theorem pageFile_agrees_torn :
    let session : Session File := ⟨{ content := .ofList (List.replicate 5000 7) }, []⟩
    let uses : List PagerUse := [.ask (.write [.blank] none),
      .ask (.write [.blank, .blank] (some 1)), .reopen, .ask .pageCount, .ask (.read (-1) 1)]
    ∃ opened, PageFile.prepare session = .ok () opened ∧
      PageFile.stored opened = List.replicate 4096 7 ∧
      (runAll (uses.map (PagerUse.perform PageFile.reopen))
        (PageFile.onPages opened)).2.device.pages.length = 3 := by
  intro session uses
  have room : Roomy (runAll (uses.map (PagerUse.perform (pure ())))
      (⟨⟨PageFile.pagesIn (PageFile.stored session)⟩, []⟩ : Session Memory)).2.device.pages := by
    decide +kernel
  rcases pageFile_agrees session rfl uses room with ⟨opened, opens, trimmed, _, _, samePages, _⟩
  refine ⟨opened, opens, trimmed.trans ?_, (congrArg List.length samePages).trans ?_⟩
  · have held : PageFile.stored session = List.replicate 5000 7 := Content.toList_ofList _
    rw [held, List.length_replicate, List.take_replicate]
    rfl
  · decide +kernel

end PagedMap
