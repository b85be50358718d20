import PagedMap.Tree.Basic

/-!
# Cursors

A cursor goes through the entries of a tree in the order of their keys, leaf by leaf along the
chain. It stays where it is when an entry cannot be read, so that the same entry may be tried
again.
-/

namespace PagedMap

/-- An entry of the map. -/
structure Entry where
  key : Bytes
  value : Bytes
deriving DecidableEq, Repr

/-- A place between two entries. -/
structure Cursor where
  /-- The leaf with the entries that come next, if there still is one. -/
  leaf : Option Leaf
  /-- The number of entries of this leaf that have been passed. -/
  passed : Nat

/-- What happens to a cursor. -/
abbrev CursorM (σ : Type) := HoldingM Cursor σ TreeError

namespace Cursor

variable {σ : Type} [Pager σ]

def start (tree : Tree) : TreeM σ Cursor :=
  return { leaf := some (← tree.leftmostLeaf), passed := 0 }

/-- Past the last entry. -/
def finish : CursorM σ Unit := do
  HoldingM.hold { (← HoldingM.held) with leaf := none }

/-- Passes the next entry, looking for it in at most `limit` leaves after the current one. -/
def advanceWithin (tree : Tree) (limit : Nat) : CursorM σ (Option Entry) := do
  let cursor ← HoldingM.held
  match cursor.leaf with
  | none => return none
  | some leaf =>
    if cursor.passed < leaf.count then
      let key ← leaf.key cursor.passed
      let value ← HoldingM.within (Value.decode (← leaf.value cursor.passed))
      HoldingM.hold { cursor with passed := cursor.passed + 1 }
      return some ⟨key, value⟩
    else if leaf.next = tree.anchor.sentinel then
      finish
      return none
    else
      match limit with
      | 0 => throw (.fault .endless)
      | limit + 1 =>
        let next ← HoldingM.within (TreeM.readLeaf leaf.next)
        HoldingM.hold { leaf := some next, passed := 0 }
        advanceWithin tree limit

/-- Passes the next entry, or gives back nothing at the end. After an error the cursor can be
tried again. -/
def advance (tree : Tree) : CursorM σ (Option Entry) := advanceWithin tree walkLimit

/-- Passes the next entry, or gives back nothing at the end. After an error the cursor is at the
end. -/
def next (tree : Tree) : CursorM σ (Option Entry) := do
  try
    advance tree
  catch
    | .error error => do
      finish
      HoldingM.fail error
    | .fault fault => throw (.fault fault)

end Cursor

end PagedMap
