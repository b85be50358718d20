import PagedMap.Storage.File
import PagedMap.Storage.Scripted
import PagedMap.Proofs.Ending

/-!
# Storages that behave as byte arrays

A storage behaves as a byte array if it keeps a content, and if each operation either does to the
content what it says, or fails and leaves the content alone. In a calm state the only operation that
fails is reading past the end, and the state stays calm.
-/

namespace PagedMap

/-- A storage that keeps a content. -/
class ByteArrayStorage (σ : Type) [Storage σ] where
  /-- The bytes kept. -/
  content : σ → Content
  /-- No operation will fail but reading past the end. -/
  Calm : σ → Prop
  readAt_ends : ∀ offset length state,
    Ends (Storage.readAt offset length state)
      (fun bytes after => (content state).readAt? offset length = some bytes ∧
        content after = content state ∧ (Calm state → Calm after))
      (fun _ after => content after = content state ∧
        (Calm state → Calm after ∧ (content state).readAt? offset length = none))
  writeAt_ends : ∀ offset data state,
    Ends (Storage.writeAt offset data state)
      (fun _ after => content after = (content state).writeAt offset data ∧
        (Calm state → Calm after))
      (fun _ after => content after = content state ∧ ¬ Calm state)
  size_ends : ∀ state,
    Ends (Storage.size state)
      (fun size after => size = (content state).size ∧ content after = content state ∧
        (Calm state → Calm after))
      (fun _ after => content after = content state ∧ ¬ Calm state)
  sync_ends : ∀ state,
    Ends (Storage.sync state)
      (fun _ after => content after = content state ∧ (Calm state → Calm after))
      (fun _ after => content after = content state ∧ ¬ Calm state)
  truncate_ends : ∀ length state,
    Ends (Storage.truncate length state)
      (fun _ after => content after = (content state).resize length ∧
        (Calm state → Calm after))
      (fun _ after => content after = content state ∧ ¬ Calm state)
  lock_ends : ∀ state,
    Ends (Storage.lock state)
      (fun _ after => content after = content state ∧ (Calm state → Calm after))
      (fun _ after => content after = content state ∧ ¬ Calm state)

/-! ## Contents as lists of bytes -/

namespace Content

variable {content : Content} {offset length : Nat} {data : Bytes}

/-- The bytes as a list. -/
def toList (content : Content) : Bytes := content.data.toList

@[simp]
theorem length_toList (content : Content) : content.toList.length = content.size :=
  Array.length_toList

@[simp]
theorem toList_append (front back : Content) :
    Content.toList (front ++ back) = front.toList ++ back.toList := by
  simp [toList, ByteArray.data_append]

@[simp]
theorem toList_ofList (bytes : Bytes) : (ofList bytes).toList = bytes := by
  simp [toList, ofList]

@[simp]
theorem toList_extract (content : Content) (start stop : Nat) :
    Content.toList (content.extract start stop) = (content.toList.take stop).drop start := by
  simp [toList, ByteArray.data_extract, List.drop_take, List.extract]

theorem readAt?_eq (inside : offset + length ≤ content.size) :
    content.readAt? offset length = some ((content.toList.drop offset).take length) := by
  simp only [readAt?]
  rw [if_pos (Or.inr inside)]
  apply congrArg some
  change Content.toList (content.extract offset (offset + length)) = _
  rw [toList_extract, List.drop_take, Nat.add_sub_cancel_left]

theorem toList_resize (inside : length ≤ content.size) :
    (content.resize length).toList = content.toList.take length := by
  rw [resize, toList_append, toList_extract, toList_ofList, List.drop_zero,
    Nat.sub_eq_zero_of_le inside, List.replicate_zero, List.append_nil]

/-- A write replaces a run of bytes and may go past the end. -/
theorem toList_writeAt (reachable : offset ≤ content.size) :
    (content.writeAt offset data).toList =
      content.toList.take offset ++ data ++ content.toList.drop (offset + data.length) := by
  simp only [writeAt]
  split
  next empty =>
    rw [List.isEmpty_iff.mp empty]
    simp
  next full =>
    have whole : content.toList.take content.size = content.toList :=
      List.take_of_length_le (Nat.le_of_eq content.length_toList)
    rw [toList_append, toList_append, toList_ofList, toList_extract, whole,
      toList_resize reachable]

end Content

/-! ## Files -/

instance : ByteArrayStorage File where
  content := File.content
  Calm file := file.poisoned = false
  readAt_ends offset length file := by
    change Ends ((match file.content.readAt? offset length with
      | some bytes => pure bytes
      | none => throw .pastEnd : EStateM StorageError File Bytes) file) _ _
    cases read : file.content.readAt? offset length with
    | some bytes => exact ⟨rfl, rfl, id⟩
    | none => exact ⟨rfl, fun calm => ⟨calm, rfl⟩⟩
  writeAt_ends offset data file := ⟨rfl, id⟩
  size_ends file := ⟨rfl, rfl, id⟩
  sync_ends file := ⟨rfl, id⟩
  truncate_ends length file := ⟨rfl, id⟩
  lock_ends file := by
    change Ends ((if file.poisoned then throw .lockPoisoned else pure () :
      EStateM StorageError File Unit) file) _ _
    cases poisoned : file.poisoned with
    | true => exact ⟨rfl, by simp⟩
    | false => exact ⟨rfl, fun _ => poisoned⟩

/-! ## Scripted storages -/

namespace Scripted

variable {α : Type} {storage : Scripted} {operation : EStateM StorageError Scripted α}
  {post : α → Scripted → Prop} {broken : StorageError → Scripted → Prop}

/-- An operation is performed if the script lets it pass, and fails without effect otherwise. -/
theorem follow_bind (call : StorageCall) (performed : Ends (operation storage) post broken)
    (failed : ∀ error, storage.failing ≠ [] → broken error storage) :
    Ends ((follow call >>= fun _ => operation) storage) post broken := by
  have follows : Ends (follow call storage) (fun _ after => after = storage)
      (fun _ after => after = storage ∧ storage.failing ≠ []) := by
    change Ends ((if storage.failing.contains call then _ else _ :
      EStateM StorageError Scripted Unit) storage) _ _
    split
    next fails =>
      have several : storage.failing ≠ [] := by
        intro empty
        rw [empty] at fails
        contradiction
      cases call <;> exact ⟨rfl, several⟩
    next passes => exact rfl
  apply Ends.bind (Ends.mono follows (fun _ _ => id) ?_)
  · rintro _ _ rfl
    exact performed
  · rintro error _ ⟨rfl, several⟩
    exact failed error several

end Scripted

instance : ByteArrayStorage Scripted where
  content := Scripted.content
  Calm storage := storage.failing = []
  readAt_ends offset length storage := by
    apply Scripted.follow_bind
    · change Ends ((match storage.content.readAt? offset length with
        | some bytes => pure bytes
        | none => throw .pastEnd : EStateM StorageError Scripted Bytes) storage) _ _
      cases read : storage.content.readAt? offset length with
      | some bytes => exact ⟨rfl, rfl, id⟩
      | none => exact ⟨rfl, fun calm => ⟨calm, rfl⟩⟩
    · intro error several
      exact ⟨rfl, fun calm => absurd calm several⟩
  writeAt_ends offset data storage := by
    apply Scripted.follow_bind
    · exact ⟨rfl, id⟩
    · exact fun error several => ⟨rfl, several⟩
  size_ends storage := by
    apply Scripted.follow_bind
    · exact ⟨rfl, rfl, id⟩
    · exact fun error several => ⟨rfl, several⟩
  sync_ends storage := by
    apply Scripted.follow_bind
    · exact ⟨rfl, id⟩
    · exact fun error several => ⟨rfl, several⟩
  truncate_ends length storage := by
    apply Scripted.follow_bind
    · exact ⟨rfl, id⟩
    · exact fun error several => ⟨rfl, several⟩
  lock_ends storage := by
    apply Scripted.follow_bind
    · exact ⟨rfl, id⟩
    · exact fun error several => ⟨rfl, several⟩

end PagedMap
