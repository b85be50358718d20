import PagedMap.Page.Leaf
import PagedMap.Page.Node

/-!
# Splitting pages

A leaf or a node that has no room for what is to be written is split in two, and what is to be
written goes to the side where it belongs. The place of a key among the keys of a page is the number
of keys that do not come after it.
-/

namespace PagedMap

/-- How many entries the left side of a split gets: half of them, or half of the bytes if it was
bytes that were lacking. Each side gets at least one. -/
def splitPoint (count : Nat) (lacksBytes : Bool) (midpoint : Nat) : Except Fault Nat := do
  let half := if lacksBytes then midpoint else count / 2
  Fault.within (2 ≤ count)
  return min (max half 1) (count - 1)

/-- Splits a leaf, and writes an entry that has a place in it. Gives back the leaf and the new one
to its right. If the entry comes before the last one on the left, the left side gives up that one
to make room. -/
def Leaf.split (leaf : Leaf) (place : Place) (key encoded : Bytes) (half : Nat) :
    Except Fault (Leaf × Leaf) := do
  let intoLeft := place.below < half
  let cut := if intoLeft then half - 1 else half
  let (left, right) ← leaf.move (Leaf.empty leaf.next) 0 cut leaf.count
  if place.exact then
    if place.below - 1 < cut then
      return (← left.setValue (place.below - 1) encoded, right)
    else
      return (left, ← right.setValue (place.below - 1 - cut) encoded)
  else if intoLeft then
    return (← left.insert place.below key encoded, right)
  else
    return (left, ← right.insert (place.below - cut) key encoded)

/-- A node that was split. -/
structure NodeSplit where
  left : Node
  /-- The key between the two sides, which moves up. -/
  separator : Bytes
  right : Node

/-- Splits a node, and inserts a key and its child after the first `below` keys. -/
def Node.split (node : Node) (below : Nat) (key : Bytes) (child : PageIndex) (half : Nat) :
    Except Fault NodeSplit := do
  if below < half then
    let separator ← node.key (half - 1)
    let sibling := Node.single (← node.child ((half : Int) - 1))
    let (kept, right) ← node.move sibling 0 half node.count
    let shortened ← kept.remove (half - 1) half
    return { left := ← shortened.insert below key child, separator, right }
  else if below = half then
    let (left, right) ← node.move (Node.single child) 0 half node.count
    return { left, separator := key, right }
  else
    let separator ← node.key half
    let sibling := Node.single (← node.child half)
    let (kept, right) ← node.move sibling 0 (half + 1) node.count
    let left ← kept.remove half (half + 1)
    return { left, separator, right := ← right.insert (below - 1 - half) key child }

end PagedMap
