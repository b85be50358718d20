import PagedMap.Proofs.Pager.PageFiles

/-!
# A storage is opened again

Before a storage is taken as pages, what an interrupted append left behind is cut off. The whole
pages are left alone, so a pager on the storage keeps the pages that were there before.
-/

namespace PagedMap.PageFile

variable {σ : Type} [Storage σ] [ByteArrayStorage σ]

/-- Without its torn last page a storage has the same whole pages. -/
theorem pagesIn_take (bytes : Bytes) :
    pagesIn (bytes.take (bytes.length - bytes.length % pageSize)) = pagesIn bytes := by
  rcases exists_rest bytes with ⟨rest, short, bytes_eq⟩
  generalize pagesIn bytes = pages at bytes_eq
  have whole : bytes.length - bytes.length % pageSize = (bytesOf pages).length := by
    rw [bytes_eq, List.length_append, length_bytesOf, Nat.add_comm, Nat.add_mul_mod_self_right,
      Nat.mod_eq_of_lt short]
    omega
  rw [whole, bytes_eq, List.take_left' rfl]
  have alone : pagesIn (bytesOf pages ++ []) = pages := pagesIn_eq (by decide)
  rw [List.append_nil] at alone
  exact alone

/-- A storage in use, taken as pages. -/
def onPages (session : Session σ) : Session (PageFile σ) := ⟨⟨session.device⟩, session.log⟩

theorem pages_of_content {before after : σ}
    (content_eq : ByteArrayStorage.content after = ByteArrayStorage.content before) :
    pages ⟨after⟩ = pages ⟨before⟩ := by
  simp only [pages]
  rw [content_eq]

/-- The whole pages of a storage are the same, and a calm storage stays calm. -/
structure SamePages (before after : Session σ) : Prop where
  pages_eq : pages ⟨after.device⟩ = pages ⟨before.device⟩
  calm : ByteArrayStorage.Calm before.device → ByteArrayStorage.Calm after.device

/-- The storage failed, which it does not do if it is calm, and its whole pages are the same. -/
def Unprepared (before : Session σ) (_ : Failure StorageError) (after : Session σ) : Prop :=
  SamePages before after ∧ ¬ ByteArrayStorage.Calm before.device

theorem SamePages.reported {before after : Session σ} (same : SamePages before after)
    (event : Event) : SamePages before { after with log := after.log ++ [event] } :=
  ⟨same.pages_eq, same.calm⟩

/-- A step on the storage prepares a file without changing its pages, if it keeps them whenever it
succeeds. -/
theorem SamePages.onDevice_ends {α : Type} {session before : Session σ}
    {operation : EStateM StorageError σ α} {post : α → σ → Prop} (same : SamePages session before)
    (ends : Ends (operation before.device) post (fun _ after =>
      ByteArrayStorage.content after = ByteArrayStorage.content before.device ∧
        ¬ ByteArrayStorage.Calm before.device))
    (keeps : ∀ value after, post value after → pages ⟨after⟩ = pages ⟨before.device⟩ ∧
      (ByteArrayStorage.Calm before.device → ByteArrayStorage.Calm after)) :
    Ends (SessionM.onDevice operation before)
      (fun value after => post value after.device ∧ SamePages session after)
      (Unprepared session) := by
  apply SessionM.onDevice_ends
  apply Ends.mono ends
  · intro value after holds
    rcases keeps value after holds with ⟨pages_eq, calm⟩
    exact ⟨holds, pages_eq.trans same.pages_eq, fun before => calm (same.calm before)⟩
  · rintro error after ⟨content_eq, stormy⟩
    have stormyBefore : ¬ ByteArrayStorage.Calm session.device := fun calm =>
      stormy (same.calm calm)
    refine ⟨⟨?_, fun calm => absurd calm stormyBefore⟩, stormyBefore⟩
    rw [← same.pages_eq]
    exact pages_of_content content_eq

/-- Preparing a storage leaves its whole pages alone, and succeeds if the storage is calm. -/
theorem prepare_ends (session : Session σ) :
    Ends (prepare session) (fun _ after => SamePages session after)
      (fun _ after => SamePages session after ∧ ¬ ByteArrayStorage.Calm session.device) := by
  simp only [prepare]
  apply SessionM.relabel_ends
  suffices ends : Ends (_ : EStateM.Result _ _ Unit) (fun _ after => SamePages session after)
      (Unprepared session) from
    ends.mono (fun _ _ => id) (by rintro (_ | _) _ <;> exact id)
  have unchanged : SamePages session session := ⟨rfl, id⟩
  apply Ends.bind (unchanged.onDevice_ends (ByteArrayStorage.size_ends session.device)
    fun _ _ found => ⟨pages_of_content found.2.1, found.2.2⟩)
  rintro size middle ⟨⟨size_eq, content_eq, _⟩, same⟩
  split
  next torn =>
    have reported := same.reported (.tailTruncated (size % pageSize) size)
    have cut : ∀ after : σ, ByteArrayStorage.content after =
        (ByteArrayStorage.content middle.device).resize (size - size % pageSize) →
        pages ⟨after⟩ = pages ⟨middle.device⟩ := by
      intro after resized
      simp only [pages]
      rw [resized, content_eq, Content.toList_resize (by omega), size_eq,
        ← Content.length_toList, pagesIn_take]
    apply Ends.bind (reported.onDevice_ends (ByteArrayStorage.truncate_ends _ middle.device)
      fun _ after resized => ⟨cut after resized.1, resized.2⟩)
    rintro _ last ⟨_, sameLast⟩
    apply Ends.mono (sameLast.onDevice_ends (ByteArrayStorage.sync_ends last.device)
      fun _ _ synced => ⟨pages_of_content synced.1, synced.2⟩) _ fun _ _ => id
    exact fun _ _ => And.right
  next => exact same

end PagedMap.PageFile
