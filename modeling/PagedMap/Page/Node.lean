import PagedMap.Page.Basic
import PagedMap.Page.Region
import PagedMap.Search

/-!
# Nodes

A node routes a search for a key. With `n` keys it has `n + 1` children, which are counted from
`-1`: child `-1` covers the keys below key `0`, and child `i` covers key `i` and what follows it up
to but not including key `i + 1`. The keys lie in a region at the front of the body, and the
children, eight bytes each, at its back with child `-1` outermost.

```
header | key table | keys →   free   ← child n-1 … child 0, child -1
```
-/

namespace PagedMap

/-- The bytes that keys, their table and children share. -/
def nodeCapacity : Nat := pageSize - headerSize

def childSize : Nat := 8

/-- A page of keys and children. -/
structure Node where
  counters : Counters
  body : Buffer nodeCapacity
deriving DecidableEq

namespace Node

def toPage (node : Node) : Page :=
  ⟨Kind.node.byte :: (node.counters.encode ++ node.body.bytes), by
    simp [node.body.length_bytes, nodeCapacity, pageSize, headerSize]⟩

/-- The body takes up what the header leaves of a page. -/
theorem length_body (page : Page) : (page.bytes.drop headerSize).length = nodeCapacity := by
  simp [page.length_bytes, nodeCapacity, pageSize, headerSize]

/-- The node that a page stores, if its kind is not looked at. -/
def ofBytes (page : Page) : Node where
  counters := page.counters
  body := ⟨page.bytes.drop headerSize, length_body page⟩

def ofPage (page : Page) : Except Fault Node := do
  Fault.require (page.kind? = some .node) (.notNode page.kindByte)
  return ofBytes page

/-- The number of keys. -/
def count (node : Node) : Nat := node.counters.count.toNat

/-- The bytes of the body in use. -/
def used (node : Node) : Nat := node.counters.used

def key (node : Node) (index : Nat) : Except Fault Bytes := do
  Fault.require (index < node.count) (.keyIndex index)
  Region.item .front node.body node.count index

def keys (node : Node) : Except Fault (List Bytes) :=
  (List.range node.count).mapM node.key

/-- The bytes of the children from the one in place `first` up to but not including the one in
place `stop`, in the order of the body. Child `-1` is in place 0. -/
def childBytes (body : Buffer nodeCapacity) (first stop : Nat) : Except Fault Bytes :=
  body.read .back (childSize * first) (childSize * (stop - first))

def writeChildBytes (body : Buffer nodeCapacity) (first : Nat) (data : Bytes) :
    Except Fault (Buffer nodeCapacity) :=
  body.write .back (childSize * first) data

def child (node : Node) (index : Int) : Except Fault PageIndex := do
  Fault.require (-1 ≤ index && index < node.count) (.childIndex index)
  let place := (index + 1).toNat
  return Bytes.toIndex (← childBytes node.body place (place + 1))

def children (node : Node) : Except Fault (List PageIndex) :=
  (List.range (node.count + 1)).mapM fun (place : Nat) => node.child ((place : Int) - 1)

/-- Replaces the child at an index. An index past the last child reaches into the free bytes. -/
def setChild (node : Node) (index : Int) (child : PageIndex) : Except Fault Node := do
  Fault.require (-1 ≤ index) (.childIndex index)
  return { node with
    body := ← writeChildBytes node.body (index + 1).toNat (Bytes.ofIndex child) }

/-- A node without keys. Its only child covers all keys. -/
def single (leftmost : PageIndex) : Node where
  counters := { Counters.zero with tail := UInt16.ofNat childSize }
  body := (Buffer.zero nodeCapacity).overwrite (nodeCapacity - childSize) (Bytes.ofIndex leftmost)
    (by simp [nodeCapacity, childSize, pageSize, headerSize])

/-- The index of the child that covers a key. -/
def route (node : Node) (key : Bytes) : Except Fault Int := do
  let below ← search node.count fun index => return (← node.key index) ≤ key
  return (below : Int) - 1

/-- Whether a further key, with its child, would exceed the capacity. -/
def overflowsWith (node : Node) (keySize : Nat) : Except Fault Bool := do
  let grown ← tableGrowth node.count 1
  let size ← Word.add (← Word.add node.used keySize) childSize
  Word.exceeds size grown nodeCapacity

/-- The node with a changed body: the header counts anew. -/
def recount (node : Node) (count : Nat) (body : Buffer nodeCapacity) : Except Fault Node := do
  let head ← Region.used .front body count
  return { counters := ← node.counters.settle count head ((count + 1) * childSize), body }

/-- Makes room for children to the right of the child at place `place`, in a body with
`count` keys. -/
def openChildren (body : Buffer nodeCapacity) (count place added : Nat) :
    Except Fault (Buffer nodeCapacity) := do
  writeChildBytes body (place + 1 + added) (← childBytes body (place + 1) (count + 1))

/-- Inserts a key at a position, with the child that covers what follows the key; they must
fit. -/
def insert (node : Node) (index : Nat) (key : Bytes) (child : PageIndex) : Except Fault Node := do
  Fault.require (index ≤ node.count) (.insertIndex index node.count)
  Fault.require (!(← node.overflowsWith key.length)) (.nodeKeyTooLarge key.length)
  let keyed ← Region.insert .front node.body node.count index key [key.length]
  let opened ← openChildren keyed node.count index 1
  let linked ← writeChildBytes opened (index + 1) (Bytes.ofIndex child)
  node.recount (node.count + 1) linked

def pair (key : Bytes) (left right : PageIndex) : Except Fault Node :=
  (single left).insert 0 key right

/-- Removes the keys from `first` up to but not including `stop`, each with the child to its
right. -/
def remove (node : Node) (first stop : Nat) : Except Fault Node := do
  Fault.require (first ≤ stop && stop ≤ node.count) (.removeRange first stop node.count)
  if first = stop then
    return node
  let unkeyed ← Region.remove .front node.body node.count first stop
  let closed ← writeChildBytes unkeyed (first + 1)
    (← childBytes unkeyed (stop + 1) (node.count + 1))
  node.recount (node.count - (stop - first)) closed

/-- Moves the keys of `source` from `first` up to but not including `stop`, each with the child to
its right, to a key position in `target`, where they must fit. Gives back both nodes. -/
def move (source target : Node) (position first stop : Nat) : Except Fault (Node × Node) := do
  Fault.require (first ≤ stop && stop ≤ source.count) (.moveRange first stop source.count)
  if first = stop then
    return (source, target)
  Fault.require (position ≤ target.count) (.insertIndex position target.count)
  let moved := stop - first
  let keys ← Region.items .front source.body source.count first stop
  let grown ← tableGrowth target.count (moved : Int)
  Fault.require
    (!(← Word.exceeds (target.used + keys.length + moved * childSize) grown nodeCapacity))
    .movedKeysTooLarge
  let keyEnds ← Region.endsWithin .front source.body source.count first stop
  let keyed ← Region.insert .front target.body target.count position keys keyEnds
  let moving ← childBytes source.body (first + 1) (stop + 1)
  let opened ← openChildren keyed target.count position moved
  let linked ← writeChildBytes opened (position + 1) moving
  let target ← target.recount (target.count + moved) linked
  let source ← source.remove first stop
  return (source, target)

/-- The first key before which at least half of the bytes of keys and their children lie. -/
def midpoint (node : Node) : Except Fault Nat := do
  let keyBytes ← Region.itemStart .front node.body node.count
  halfway (keyBytes + node.count * childSize) node.count fun index =>
    return (← node.key index).length + childSize

@[ext]
theorem ext {left right : Node} (counters : left.counters = right.counters)
    (body : left.body = right.body) : left = right := by
  cases left
  cases right
  simp_all

theorem ofBytes_toPage (node : Node) : ofBytes node.toPage = node := by
  ext : 1
  · simp only [ofBytes, toPage, Page.counters, Buffer.slice, List.drop_succ_cons, List.drop_zero]
    rw [List.take_left' (by simp), Counters.decode_encode]
  · apply Buffer.ext
    simp only [ofBytes, toPage, headerSize, List.drop_succ_cons]
    rw [List.drop_left' (by simp)]

end Node

end PagedMap
