import PagedMap.Bytes

/-!
# Storage

A storage is a run of bytes that can be read and overwritten at any offset, and made longer or
shorter. Every operation may fail, and what a failing operation did to the storage is the storage's
own affair.
-/

namespace PagedMap

/-- The reasons why a storage fails. -/
inductive StorageError where
  /-- The device failed, with a text of its own. -/
  | io (text : String)
  /-- The allocation lock was left behind by a holder that did not finish. -/
  | lockPoisoned
deriving DecidableEq, Repr

namespace StorageError

def pastEnd : StorageError := io "failed to fill whole buffer"

def message : StorageError → String
  | io text => s!"I/O error: {text}"
  | lockPoisoned => "storage lock poisoned"

/-- The texts of the errors behind an error, the nearest first. -/
def causes : StorageError → List String
  | io text => [text]
  | lockPoisoned => []

end StorageError

/-- The operations of a storage, each a change of its state. -/
class Storage (σ : Type) where
  /-- Reads `length` bytes from an offset on; they must all be there. -/
  readAt (offset length : Nat) : EStateM StorageError σ Bytes
  /-- Writes bytes from an offset on, and makes the storage longer if it has to. -/
  writeAt (offset : Nat) (data : Bytes) : EStateM StorageError σ Unit
  /-- The number of bytes stored. -/
  size : EStateM StorageError σ Nat
  /-- Makes all that was written durable. -/
  sync : EStateM StorageError σ Unit
  /-- Cuts off what lies past a length, or fills up with zeros to it. -/
  truncate (length : Nat) : EStateM StorageError σ Unit
  /-- Takes and releases the lock that keeps two writers from extending the storage at once. -/
  lock : EStateM StorageError σ Unit

abbrev Content := ByteArray

namespace Content

def ofList (bytes : Bytes) : Content := ⟨bytes.toArray⟩

/-- The bytes from an offset on, if they are all there. Nothing can be read anywhere. -/
def readAt? (content : Content) (offset length : Nat) : Option Bytes :=
  if length = 0 ∨ offset + length ≤ content.size then
    some (content.extract offset (offset + length)).data.toList
  else
    none

/-- The content cut off at a length, or filled up with zeros to it. -/
def resize (content : Content) (length : Nat) : Content :=
  content.extract 0 length ++ ofList (List.replicate (length - content.size) 0)

/-- The content with bytes written from an offset on. A gap before them is filled with zeros;
writing nothing changes nothing. -/
def writeAt (content : Content) (offset : Nat) (data : Bytes) : Content :=
  if data.isEmpty then
    content
  else
    content.resize offset ++ ofList data ++
      content.extract (offset + data.length) content.size

end Content

end PagedMap
