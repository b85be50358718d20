import PagedMap.Page.Basic
import PagedMap.Storage.Basic
import PagedMap.Word

/-!
# Pagers

A pager is a sequence of pages that grows at its end and never shrinks. Pages are read and
overwritten by their index, and a page written at the end is appended. Every operation may fail.
-/

namespace PagedMap

/-- The reasons why a pager fails. -/
inductive PagerError where
  /-- The storage behind the pager failed. -/
  | storage (cause : StorageError)
  /-- A page past the end of the pager. -/
  | outOfBounds (index : PageIndex) (count : Nat)
  /-- A negative index. -/
  | invalidIndex (index : PageIndex)
  /-- A failure that was asked for. -/
  | injectedFault (text : String)
  /-- A lock was left behind by a holder that did not finish. -/
  | lockPoisoned
deriving DecidableEq, Repr

namespace PagerError

def message : PagerError → String
  | storage cause => s!"storage error: {cause.message}"
  | outOfBounds index count => s!"page {index.toInt} out of bounds (total pages: {count})"
  | invalidIndex index => s!"invalid page index: {index.toInt}"
  | injectedFault text => s!"injected fault: {text}"
  | lockPoisoned => "pager lock poisoned"

/-- The texts of the errors behind an error, the nearest first. -/
def causes : PagerError → List String
  | storage cause => cause.message :: cause.causes
  | outOfBounds .. | invalidIndex .. | injectedFault .. | lockPoisoned => []

end PagerError

namespace PageIndex

def position (index : PageIndex) : Except PagerError Nat :=
  if index.toInt < 0 then .error (.invalidIndex index) else .ok index.toInt.toNat

def ofPosition (position : Nat) : Except PagerError PageIndex :=
  if position < Word.signedLimit then
    .ok (Int64.ofNat position)
  else
    .error (.outOfBounds Int64.maxValue position)

end PageIndex

/-- The operations of a pager, each a change of its state. -/
class Pager (σ : Type) where
  /-- Reads `amount` pages that follow each other, the first at `start`. -/
  readPages (start : PageIndex) (amount : Nat) : EStateM PagerError σ (List Page)
  /-- Writes pages that follow each other, the first at `start` or else at the end, and gives back
  the index of the first. -/
  writePages (pages : List Page) (start : Option PageIndex) : EStateM PagerError σ PageIndex
  /-- Makes all that was written durable. -/
  sync : EStateM PagerError σ Unit
  /-- The number of pages. -/
  pageCount : EStateM PagerError σ Nat

/-- An outcome as an operation that changes nothing. -/
instance liftOutcome {ε σ : Type} : MonadLift (Except ε) (EStateM ε σ) where
  monadLift outcome := match outcome with
    | .ok value => pure value
    | .error error => throw error

namespace Pager

variable {σ : Type} [Pager σ]

def readPage (index : PageIndex) : EStateM PagerError σ Page :=
  return (← readPages index 1).headD .blank

/-- Overwrites a page, or appends it if the index is the number of pages. -/
def writePage (page : Page) (index : PageIndex) : EStateM PagerError σ Unit :=
  discard (writePages [page] (some index))

def appendPage (page : Page) : EStateM PagerError σ PageIndex :=
  writePages [page] none

end Pager

/-- A pager around another one. -/
class Encloses (τ : Type) (σ : outParam Type) where
  inner : τ → σ
  withInner : τ → σ → τ

/-- An operation of the inner pager. -/
def Pager.onInner {τ σ α : Type} [Encloses τ σ] (operation : EStateM PagerError σ α) :
    EStateM PagerError τ α := fun pager =>
  match operation (Encloses.inner pager) with
  | .ok value inner => .ok value (Encloses.withInner pager inner)
  | .error error inner => .error error (Encloses.withInner pager inner)

end PagedMap
