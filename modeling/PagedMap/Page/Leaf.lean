import PagedMap.Page.Basic
import PagedMap.Page.Region
import PagedMap.Search

/-!
# Leaves

A leaf holds entries of the map in the order of their keys, and the index of the leaf that follows
it. The keys lie in a region at the front of the body and the encoded values in a region at its
back; the header counts the entries and the bytes that each region uses.

```
header | next | key table | keys →   free   ← values | value table
```
-/

namespace PagedMap

/-- The bytes that keys, values and their tables share. -/
def leafCapacity : Nat := pageSize - headerSize - 8

/-- The longest key that the map accepts. -/
def maxKeySize : Nat := 512

/-- The most bytes that a key and its encoded value take together. -/
def maxInlineEntry : Nat := 1024

/-- A page of entries. -/
structure Leaf where
  counters : Counters
  /-- The leaf that follows in the order of keys. -/
  next : PageIndex
  body : Buffer leafCapacity
deriving DecidableEq

/-- Where a key is, or would be, among the entries of a leaf. -/
structure Place where
  /-- The number of entries whose keys do not come after the key. -/
  below : Nat
  /-- Whether the last of these entries has the key itself. -/
  exact : Bool
deriving DecidableEq, Repr

namespace Leaf

def empty (next : PageIndex) : Leaf := ⟨.zero, next, .zero leafCapacity⟩

def toPage (leaf : Leaf) : Page :=
  ⟨Kind.leaf.byte :: (leaf.counters.encode ++ (Bytes.ofIndex leaf.next ++ leaf.body.bytes)), by
    simp [leaf.body.length_bytes, leafCapacity, pageSize, headerSize]⟩

/-- The body takes up what the header and the link leave of a page. -/
theorem length_body (page : Page) : (page.bytes.drop (headerSize + 8)).length = leafCapacity := by
  simp [page.length_bytes, leafCapacity, pageSize, headerSize]

/-- The leaf that a page stores, if its kind is not looked at. -/
def ofBytes (page : Page) : Leaf where
  counters := page.counters
  next := Bytes.toIndex (page.slice headerSize 8)
  body := ⟨page.bytes.drop (headerSize + 8), length_body page⟩

def ofPage (page : Page) : Except Fault Leaf := do
  Fault.require (page.kind? = some .leaf) (.notLeaf page.kindByte)
  return ofBytes page

/-- The number of entries. -/
def count (leaf : Leaf) : Nat := leaf.counters.count.toNat

/-- The bytes of the body in use. -/
def used (leaf : Leaf) : Nat := leaf.counters.used

def key (leaf : Leaf) (index : Nat) : Except Fault Bytes := do
  Fault.require (index < leaf.count) (.keyIndex index)
  Region.item .front leaf.body leaf.count index

def value (leaf : Leaf) (index : Nat) : Except Fault Bytes := do
  Fault.require (index < leaf.count) (.valueIndex index)
  Region.item .back leaf.body leaf.count index

def entries (leaf : Leaf) : Except Fault (List (Bytes × Bytes)) :=
  (List.range leaf.count).mapM fun index => return (← leaf.key index, ← leaf.value index)

/-- The bytes of an entry's key and encoded value. -/
def entrySize (leaf : Leaf) (index : Nat) : Except Fault Nat :=
  return (← leaf.key index).length + (← leaf.value index).length

/-- Where a key is, or would be inserted. -/
def find (leaf : Leaf) (key : Bytes) : Except Fault Place := do
  let below ← search leaf.count fun index => return (← leaf.key index) ≤ key
  if below = 0 then
    return ⟨below, false⟩
  else
    return ⟨below, (← leaf.key (below - 1)) = key⟩

/-- Whether a further entry would exceed the capacity. -/
def overflowsWith (leaf : Leaf) (keySize valueSize : Nat) : Except Fault Bool := do
  let grown ← tableGrowth leaf.count 1
  let size ← Word.add (← Word.add leaf.used keySize) valueSize
  Word.exceeds size (2 * grown) leafCapacity

/-- Whether another value for an entry would exceed the capacity. -/
def overflowsWithValue (leaf : Leaf) (index valueSize : Nat) : Except Fault Bool := do
  let others ← Word.sub leaf.used (← leaf.value index).length
  return (← Word.add others valueSize) > leafCapacity

/-- Whether another key and value in place of an entry would exceed the capacity. -/
def overflowsWithEntry (leaf : Leaf) (index keySize valueSize : Nat) : Except Fault Bool := do
  let others ← Word.sub leaf.used (← leaf.entrySize index)
  return (← Word.add (← Word.add others keySize) valueSize) > leafCapacity

/-- The leaf with a changed body: the header counts anew. -/
def recount (leaf : Leaf) (count : Nat) (body : Buffer leafCapacity) : Except Fault Leaf := do
  let head ← Region.used .front body count
  let tail ← Region.used .back body count
  return { leaf with counters := ← leaf.counters.settle count head tail, body }

/-- Inserts an entry at a position; it must fit. -/
def insert (leaf : Leaf) (index : Nat) (key value : Bytes) : Except Fault Leaf := do
  Fault.require (index ≤ leaf.count) (.insertIndex index leaf.count)
  Fault.require (!(← leaf.overflowsWith key.length value.length))
    (.entryTooLarge (key.length + value.length))
  let keyed ← Region.insert .front leaf.body leaf.count index key [key.length]
  let valued ← Region.insert .back keyed leaf.count index value [value.length]
  leaf.recount (leaf.count + 1) valued

/-- Replaces the value of an entry; the new one must fit. -/
def setValue (leaf : Leaf) (index : Nat) (value : Bytes) : Except Fault Leaf := do
  Fault.require (!(← leaf.overflowsWithValue index value.length)) (.valueTooLarge value.length)
  leaf.recount leaf.count (← Region.replace .back leaf.body leaf.count index value)

/-- Replaces the key and the value of an entry; the new ones must fit. The region that shrinks is
changed first, so that the two never overlap. -/
def setEntry (leaf : Leaf) (index : Nat) (key value : Bytes) : Except Fault Leaf := do
  Fault.require (!(← leaf.overflowsWithEntry index key.length value.length))
    (.entryTooLarge (key.length + value.length))
  if key.length > (← leaf.key index).length then
    let valued ← Region.replace .back leaf.body leaf.count index value
    leaf.recount leaf.count (← Region.replace .front valued leaf.count index key)
  else
    let keyed ← Region.replace .front leaf.body leaf.count index key
    leaf.recount leaf.count (← Region.replace .back keyed leaf.count index value)

/-- Moves the entries of `source` from `first` up to but not including `stop` to a position in
`target`, where they must fit. Gives back both leaves. -/
def move (source target : Leaf) (position first stop : Nat) : Except Fault (Leaf × Leaf) := do
  Fault.require (first ≤ stop && stop ≤ source.count) (.moveRange first stop source.count)
  if first = stop then
    return (source, target)
  Fault.require (position ≤ target.count) (.insertIndex position target.count)
  let keys ← Region.items .front source.body source.count first stop
  let values ← Region.items .back source.body source.count first stop
  let grown ← tableGrowth target.count ((stop - first : Nat) : Int)
  Fault.require
    (!(← Word.exceeds (target.used + keys.length + values.length) (2 * grown) leafCapacity))
    .movedEntriesTooLarge
  let keyEnds ← Region.endsWithin .front source.body source.count first stop
  let valueEnds ← Region.endsWithin .back source.body source.count first stop
  let keyed ← Region.insert .front target.body target.count position keys keyEnds
  let valued ← Region.insert .back keyed target.count position values valueEnds
  let target ← target.recount (target.count + (stop - first)) valued
  let unkeyed ← Region.remove .front source.body source.count first stop
  let unvalued ← Region.remove .back unkeyed source.count first stop
  let source ← source.recount (source.count - (stop - first)) unvalued
  return (source, target)

/-- The first entry before which at least half of all stored bytes lie. -/
def midpoint (leaf : Leaf) : Except Fault Nat := do
  let sizes ← (List.range leaf.count).mapM leaf.entrySize
  halfway (sizes.foldl (· + ·) 0) sizes.length fun index => .ok (sizes.getD index 0)

@[ext]
theorem ext {left right : Leaf} (counters : left.counters = right.counters)
    (next : left.next = right.next) (body : left.body = right.body) : left = right := by
  cases left
  cases right
  simp_all

theorem ofBytes_toPage (leaf : Leaf) : ofBytes leaf.toPage = leaf := by
  have countersDropped :
      (leaf.counters.encode ++ (Bytes.ofIndex leaf.next ++ leaf.body.bytes)).drop 7 =
        Bytes.ofIndex leaf.next ++ leaf.body.bytes := List.drop_left' (by simp)
  ext : 1
  · simp only [ofBytes, toPage, Page.counters, Buffer.slice, List.drop_succ_cons, List.drop_zero]
    rw [List.take_left' (by simp), Counters.decode_encode]
  · simp only [ofBytes, toPage, Buffer.slice, headerSize, List.drop_succ_cons, countersDropped]
    rw [List.take_left' (by simp), Bytes.toIndex_ofIndex]
  · apply Buffer.ext
    simp only [ofBytes, toPage, headerSize, List.drop_succ_cons]
    rw [Nat.add_comm, ← List.drop_drop, countersDropped, List.drop_left' (by simp)]

end Leaf

end PagedMap
