import PagedMap.Tree.Basic
import PagedMap.Tree.Shadows
import PagedMap.Tree.Split

/-!
# Transactions

A transaction changes a tree. Before it overwrites a page that was there when it began, it appends
a copy of the page, so that it can be undone. Pages that it appended itself need no copy: nothing
that remains after an undo leads to them. A new page is always written before a page that links to
it.

A transaction ends by being committed, by being rolled back, or by a failure of the pager, which
undoes it. One that is dropped before its end is rolled back.
-/

namespace PagedMap

/-- Where a transaction stands. -/
inductive Phase where
  | active
  | committed
  | aborted
deriving DecidableEq, Repr

/-- A change of a tree under way. -/
structure Transaction where
  tree : Tree
  shadows : Shadows
  /-- Pages from this index on were appended by the transaction. -/
  freshFrom : PageIndex
  /-- The anchor before the transaction. -/
  anchorBefore : Anchor
  phase : Phase

/-- What happens to a transaction. -/
abbrev TransactionM (σ : Type) := HoldingM Transaction σ TreeError

namespace Transaction

open HoldingM (held hold within)

variable {σ : Type} [Pager σ]

def start (tree : Tree) : TreeM σ Transaction := do
  let freshFrom ← TreeM.call (PageIndex.ofPosition (← TreeM.pageCount))
  return { tree, shadows := [], freshFrom, anchorBefore := tree.anchor, phase := .active }

def isActive (transaction : Transaction) : Bool := transaction.phase = .active

/-- Goes on only in a transaction that has not ended. -/
def requireActive : TransactionM σ Unit := do
  if !(← held).isActive then
    HoldingM.fail .transactionClosed

/-- The transaction enters a phase. -/
def enter (phase : Phase) : TransactionM σ Unit := do
  hold { (← held) with phase }

/-- Changes the anchor in memory; the anchor page stays as it is. -/
def setAnchor (anchor : Anchor) : TransactionM σ Unit := do
  let transaction ← held
  hold { transaction with tree := { transaction.tree with anchor } }

/-- The value of a key, if it has one, with what the transaction has written. -/
def get? (key : Bytes) : TransactionM σ (Option Bytes) := do
  requireActive
  within ((← held).tree.get? key)

/-- Whether a key has a value, with what the transaction has written. -/
def contains (key : Bytes) : TransactionM σ Bool := do
  requireActive
  within ((← held).tree.contains key)

/-- Copies a page, unless it has been copied or was appended by the transaction. -/
def shadow (index : PageIndex) : TransactionM σ Unit := do
  let transaction ← held
  if transaction.freshFrom ≤ index ∨ transaction.shadows.covers index then
    return
  let page ← within (TreeM.readPage index)
  let copy ← within (TreeM.appendPage page)
  hold { transaction with shadows := transaction.shadows.insert ⟨index, copy⟩ }

/-- Overwrites a page, after copying it if need be. -/
def overwrite (index : PageIndex) (page : Page) : TransactionM σ Unit := do
  shadow index
  within (TreeM.writePage page index)

/-- Overwrites the anchor page with the anchor in memory. -/
def writeAnchor : TransactionM σ Unit := do
  let tree := (← held).tree
  within (TreeM.writePage tree.anchor.toPage tree.anchorIndex)

/-- Puts a new root above two pages. -/
def growRoot (left : PageIndex) (separator : Bytes) (right : PageIndex) :
    TransactionM σ Unit := do
  let node ← Node.pair separator left right
  let root ← within (TreeM.appendPage node.toPage)
  let tree := (← held).tree
  shadow tree.anchorIndex
  setAnchor { tree.anchor with root }
  writeAnchor
  within (SessionM.report (.rootGrown root left right))

/-- Inserts the separator between a page and its new right sibling into the nodes above them, the
nearest first, and splits the nodes that have no room. If none has, the tree grows a new root. -/
def propagate (path : List Step) (child : PageIndex) (separator : Bytes) (right : PageIndex) :
    TransactionM σ Unit := do
  match path with
  | [] => growRoot child separator right
  | step :: above => do
    let below := (step.taken + 1).toNat
    let node ← step.node.setChild step.taken child
    let lacksBytes ← node.overflowsWith separator.length
    if !lacksBytes && node.count < (← held).tree.config.maxEntries then
      let wider ← node.insert below separator right
      overwrite step.index wider.toPage
    else
      let half ← splitPoint node.count lacksBytes (← node.midpoint)
      let split ← node.split below separator right half
      let sibling ← within (TreeM.appendPage split.right.toPage)
      overwrite step.index split.left.toPage
      within (SessionM.report
        (.nodeSplit step.index half split.left.count split.right.count sibling))
      propagate above step.index split.separator sibling

/-- Splits a leaf to write an entry, and tells the nodes above. -/
def splitLeaf (found : Descent) (place : Place) (key encoded : Bytes) (lacksBytes : Bool) :
    TransactionM σ Unit := do
  let half ← splitPoint found.leaf.count lacksBytes (← found.leaf.midpoint)
  let (left, right) ← found.leaf.split place key encoded half
  let rightIndex ← within (TreeM.appendPage right.toPage)
  overwrite found.index { left with next := rightIndex }.toPage
  within (SessionM.report (.leafSplit found.index half left.count right.count rightIndex))
  propagate found.path found.index (← right.key 0) rightIndex

/-- Writes an entry into the leaf where it belongs, in place if there is room. -/
def put (key value : Bytes) : TransactionM σ Unit := do
  let tree := (← held).tree
  let found ← within (tree.descend key)
  let place ← found.leaf.find key
  let encoded ← within (TreeM.ofPager (Value.encode key.length value))
  if place.exact then
    if ← found.leaf.overflowsWithValue (place.below - 1) encoded.length then
      splitLeaf found place key encoded true
    else
      overwrite found.index (← found.leaf.setValue (place.below - 1) encoded).toPage
  else
    let lacksBytes ← found.leaf.overflowsWith key.length encoded.length
    if lacksBytes || found.leaf.count + 1 > tree.config.maxEntries then
      splitLeaf found place key encoded lacksBytes
    else
      overwrite found.index (← found.leaf.insert place.below key encoded).toPage

/-- Writes copies back over the pages that were copied. -/
def copyBack : Shadows → TreeM σ Unit
  | [] => return ()
  | shadow :: rest => do
    let page ← TreeM.readPage shadow.copy
    TreeM.writePage page shadow.page
    copyBack rest

/-- Undoes all that the transaction wrote. The anchor in memory goes back first, so that lookups
start from the old root even if a page cannot be written back. -/
def undo : TransactionM σ Unit := do
  let transaction ← held
  setAnchor transaction.anchorBefore
  within (copyBack transaction.shadows)
  within TreeM.sync
  within (SessionM.report (.rolledBack transaction.shadows.length))

/-- Undoes the transaction and goes on whether or not that succeeds; a failure is reported. -/
def undoAnyway (failed : TreeError → Event) : TransactionM σ Unit := do
  try
    undo
  catch
    | .error error => within (SessionM.report (failed error))
    | .fault fault => throw (.fault fault)

/-- Ends the transaction after the pager has failed. -/
def abort : TransactionM σ Unit := do
  undoAnyway .undoFailed
  enter .aborted

/-- Gives a key a value. If the pager fails, the transaction is undone and ends. -/
def insert (key value : Bytes) : TransactionM σ Unit := do
  requireActive
  if key.length > maxKeySize then
    HoldingM.fail (.keyTooLarge key.length maxKeySize)
  try
    put key value
  catch failure => do
    if let .error error := failure then
      if error.isPagerFailure then
        abort
    throw failure

/-- Would remove a key; there is no way to do that yet. -/
def erase (_key : Bytes) : TransactionM σ Unit := do
  requireActive
  HoldingM.fail (.notImplemented "delete")

/-- The commit number goes up by one; there must be a next one. -/
def nextSequence (sequence : UInt64) : Except Fault UInt64 :=
  return UInt64.ofNat (← Word.add sequence.toNat 1)

/-- Writes the anchor with the next commit number, and makes all that was written durable. -/
def makeDurable : TransactionM σ Unit := do
  let tree := (← held).tree
  shadow tree.anchorIndex
  setAnchor { tree.anchor with sequence := ← nextSequence tree.anchor.sequence }
  writeAnchor
  within TreeM.sync

/-- Lets go of the transaction. If it has not ended, it is rolled back. -/
def drop : TransactionM σ Unit := do
  if (← held).isActive then
    within (SessionM.report .droppedActive)
    undoAnyway .dropFailed
    enter .aborted

/-- Makes what the transaction wrote durable, and ends it. If the pager fails, the transaction is
undone. -/
def commit : TransactionM σ Unit := do
  requireActive
  try
    makeDurable
  catch
    | .error error => do
      abort
      HoldingM.fail error
    | .fault fault => do
      drop
      throw (.fault fault)
  enter .committed
  let transaction ← held
  within (SessionM.report
        (.committed transaction.tree.anchor.sequence transaction.shadows.length))

/-- Undoes what the transaction wrote, and ends it. -/
def rollback : TransactionM σ Unit := do
  requireActive
  try
    undo
  catch failure => do
    enter .aborted
    throw failure
  enter .aborted

end Transaction

end PagedMap
