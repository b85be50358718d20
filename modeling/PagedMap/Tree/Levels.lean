import PagedMap.Tree.Basic

/-!
# The levels of a tree

All pages of a tree between its root and its leaves, level by level and from left to right. Pages
are taken as they are, whatever their kind, so that only the pager can fail.
-/

namespace PagedMap.Tree

abbrev Located := PageIndex × Page

/-- The children of a page: those of a node whose children can be read, and none otherwise. -/
def childrenOf (page : Page) : List PageIndex :=
  match page.view with
  | .ok (.node node) => match node.children with
    | .ok children => children
    | .error _ => []
  | _ => []

variable {σ : Type} [Pager σ]

/-- The pages of a level and of the levels below it, down to at most `limit` levels. -/
def levelsFrom (limit : Nat) (indices : List PageIndex) :
    SessionM σ PagerError (List (List Located)) :=
  match limit, indices with
  | _, [] => return []
  | 0, _ => throw (.fault .endless)
  | limit + 1, indices => do
    let level ← indices.mapM fun index =>
      return (index, ← SessionM.onDevice (Pager.readPage index))
    let below ← levelsFrom limit (level.flatMap fun located => childrenOf located.2)
    return level :: below

def levels (tree : Tree) : SessionM σ PagerError (List (List Located)) :=
  levelsFrom walkLimit [tree.anchor.root]

end PagedMap.Tree
