import PagedMap.Page.View
import PagedMap.Session

/-!
# Reading and writing the pages of a tree

The calls of a pager as steps of a session on a tree, and pages read according to their kind.
-/

namespace PagedMap

/-- What happens to a tree on a pager. -/
abbrev TreeM (σ : Type) := SessionM σ TreeError

namespace TreeM

variable {σ : Type} [Pager σ]

/-- A step of which only the pager can fail. -/
def ofPager {α : Type} (action : SessionM σ PagerError α) : TreeM σ α :=
  SessionM.relabel .pager action

/-- A call of the pager. -/
def call {α : Type} (operation : EStateM PagerError σ α) : TreeM σ α :=
  ofPager (SessionM.onDevice operation)

def pageCount : TreeM σ Nat := call Pager.pageCount

def readPage (index : PageIndex) : TreeM σ Page := call (Pager.readPage index)

def writePage (page : Page) (index : PageIndex) : TreeM σ Unit :=
  call (Pager.writePage page index)

def appendPage (page : Page) : TreeM σ PageIndex := call (Pager.appendPage page)

/-- Makes all that was written durable. -/
def sync : TreeM σ Unit := call Pager.sync

def readView (index : PageIndex) : TreeM σ View := do
  match (← readPage index).view with
  | .ok view => return view
  | .error unknown => SessionM.fail (.unexpectedPage index unknown.byte)

/-- Reports a page whose kind does not belong where it is. -/
def unexpected {α : Type} (index : PageIndex) (view : View) : TreeM σ α :=
  SessionM.fail (.unexpectedPage index view.kind.byte)

def readLeaf (index : PageIndex) : TreeM σ Leaf := do
  match ← readView index with
  | .leaf leaf => return leaf
  | other => unexpected index other

end TreeM

/-- The most pages that a walk can visit without coming back to one of them: there are no more
page indices. -/
def walkLimit : Nat := Word.signedLimit

end PagedMap
