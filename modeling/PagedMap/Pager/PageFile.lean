import PagedMap.Pager.Basic
import PagedMap.Session

/-!
# Pages in a storage

A pager that keeps page `i` of a storage at offset `4096 * i`.
-/

namespace PagedMap

/-- A storage taken as pages. -/
structure PageFile (σ : Type) where
  storage : σ

namespace PageFile

variable {σ : Type}

def onStorage {α : Type} (operation : EStateM StorageError σ α) :
    EStateM PagerError (PageFile σ) α := fun file =>
  match operation file.storage with
  | .ok value storage => .ok value ⟨storage⟩
  | .error error storage => .error (.storage error) ⟨storage⟩

variable [Storage σ]

/-- Prepares a storage: a last page that is not complete, as an interrupted append leaves it, is
cut off. -/
def prepare : SessionM σ PagerError Unit := SessionM.relabel .storage do
  let size ← SessionM.onDevice Storage.size
  let torn := size % pageSize
  if torn ≠ 0 then
    SessionM.report (.tailTruncated torn size)
    SessionM.onDevice (Storage.truncate (size - torn))
    SessionM.onDevice Storage.sync

/-- The number of whole pages. -/
def count : EStateM PagerError (PageFile σ) Nat :=
  return (← onStorage Storage.size) / pageSize

/-- Reads `amount` pages that follow each other, the first at a position. -/
def readFrom (position amount : Nat) : EStateM PagerError (PageFile σ) (List Page) :=
  (List.range amount).mapM fun offset =>
    return Buffer.ofBytes pageSize
      (← onStorage (Storage.readAt ((position + offset) * pageSize) pageSize))

instance : Pager (PageFile σ) where
  readPages start amount := do
    let position ← PageIndex.position start
    let count ← count
    if position + amount > count then
      throw (.outOfBounds start count)
    readFrom position amount
  writePages pages start := do
    onStorage Storage.lock
    let count ← count
    let position ← match start with
      | some index => PageIndex.position index
      | none => pure count
    if position > count then
      throw (.outOfBounds (← PageIndex.ofPosition position) count)
    onStorage (Storage.writeAt (position * pageSize) (pages.flatMap Buffer.bytes))
    PageIndex.ofPosition position
  sync := onStorage Storage.sync
  pageCount := count

end PageFile

end PagedMap
