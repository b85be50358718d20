import PagedMap.Tree.Config
import PagedMap.Tree.Value

/-!
# Trees

A tree keeps a map from byte strings to byte strings in the pages of a pager. Its anchor page names
the root. Nodes route a search down to a leaf, and the leaves, which hold the entries, are chained
in the order of their keys. The last leaf links to the sentinel, an empty leaf of its own that is
never written again.

This module opens a tree and looks things up. Changes are made by transactions.
-/

namespace PagedMap

/-- A tree on a pager. -/
structure Tree where
  /-- The page that stores the anchor. -/
  anchorIndex : PageIndex
  anchor : Anchor
  config : Config

/-- A node on the way from the root to a leaf. -/
structure Step where
  index : PageIndex
  node : Node
  /-- The index of the child by which the way goes on. -/
  taken : Int

/-- The end of a way from the root to a leaf. -/
structure Descent where
  index : PageIndex
  leaf : Leaf
  /-- The nodes on the way, the one nearest to the leaf first. -/
  path : List Step

namespace Tree

variable {σ : Type} [Pager σ]

/-- Makes an empty tree. The anchor page is written first, to take its place, and again when the
sentinel and the first leaf are there. -/
def create (anchorIndex : PageIndex) (config : Config) : TreeM σ Tree := do
  TreeM.writePage (Anchor.toPage ⟨0, 0, 0⟩) anchorIndex
  let sentinel ← TreeM.appendPage (Leaf.empty 0).toPage
  let root ← TreeM.appendPage (Leaf.empty sentinel).toPage
  let anchor : Anchor := ⟨root, sentinel, 0⟩
  TreeM.writePage anchor.toPage anchorIndex
  TreeM.sync
  SessionM.report (.treeCreated anchorIndex root sentinel)
  return { anchorIndex, anchor, config }

/-- The tree whose anchor a page holds. -/
def ofAnchorPage (anchorIndex : PageIndex) (config : Config) (page : Page) : TreeM σ Tree := do
  match Anchor.ofPage page with
  | .error mismatch => SessionM.fail (.formatMismatch mismatch)
  | .ok anchor =>
    SessionM.report (.treeOpened anchorIndex anchor.root anchor.sequence)
    return { anchorIndex, anchor, config }

/-- Opens the tree with its anchor at a page. If there is no such page yet, or if it is blank, an
empty tree is made. -/
def openOrCreate (anchorIndex : PageIndex) (config : Config) : TreeM σ Tree := do
  let position ← TreeM.call (PageIndex.position anchorIndex)
  if position < (← TreeM.pageCount) then
    let page ← TreeM.readPage anchorIndex
    if page.kind? = some .blank then
      create anchorIndex config
    else
      ofAnchorPage anchorIndex config page
  else
    create anchorIndex config

/-- Goes down from a page to a leaf, at each node by the child that is chosen. -/
def descendFrom (choose : Node → Except Fault Int) (limit : Nat) (index : PageIndex)
    (path : List Step) : TreeM σ Descent :=
  match limit with
  | 0 => throw (.fault .endless)
  | limit + 1 => do
    match ← TreeM.readView index with
    | .node node =>
      let taken ← choose node
      let child ← node.child taken
      descendFrom choose limit child (⟨index, node, taken⟩ :: path)
    | .leaf leaf => return { index, leaf, path }
    | other => TreeM.unexpected index other

/-- Goes down from the root to the leaf that covers a key. -/
def descend (tree : Tree) (key : Bytes) : TreeM σ Descent :=
  descendFrom (fun node => node.route key) walkLimit tree.anchor.root []

/-- The first leaf. -/
def leftmostLeaf (tree : Tree) : TreeM σ Leaf :=
  return (← descendFrom (fun _ => .ok (-1)) walkLimit tree.anchor.root []).leaf

def get? (tree : Tree) (key : Bytes) : TreeM σ (Option Bytes) := do
  let found ← tree.descend key
  let place ← found.leaf.find key
  if place.exact then
    return some (← Value.decode (← found.leaf.value (place.below - 1)))
  else
    return none

/-- Whether a key has a value. Overflow pages are not read. -/
def contains (tree : Tree) (key : Bytes) : TreeM σ Bool := do
  let found ← tree.descend key
  return (← found.leaf.find key).exact

/-- Counts entries along the chain of leaves, from a leaf to the last one. -/
def countFrom (tree : Tree) (limit : Nat) (leaf : Leaf) (counted : Nat) : TreeM σ Nat :=
  if leaf.next = tree.anchor.sentinel then
    return counted + leaf.count
  else
    match limit with
    | 0 => throw (.fault .endless)
    | limit + 1 => do
      countFrom tree limit (← TreeM.readLeaf leaf.next) (counted + leaf.count)

def size (tree : Tree) : TreeM σ Nat := do
  tree.countFrom walkLimit (← tree.leftmostLeaf) 0

end Tree

end PagedMap
