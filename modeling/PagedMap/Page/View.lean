import PagedMap.Page.Anchor
import PagedMap.Page.Leaf
import PagedMap.Page.Node
import PagedMap.Page.Overflow

/-!
# Pages by kind

A page of a known kind is read as what its kind says.
-/

namespace PagedMap

/-- A page read according to its kind. An anchor page may yet turn out not to hold an anchor. -/
inductive View where
  | blank
  | anchor (page : Page)
  | node (node : Node)
  | leaf (leaf : Leaf)
  | overflow (overflow : Overflow)
deriving DecidableEq

def View.kind : View → Kind
  | blank => .blank
  | anchor _ => .anchor
  | node _ => .node
  | leaf _ => .leaf
  | overflow _ => .overflow

def Page.view (page : Page) : Except UnknownKind View :=
  match page.kind? with
  | none => .error ⟨page.kindByte⟩
  | some .blank => .ok .blank
  | some .anchor => .ok (.anchor page)
  | some .node => .ok (.node (Node.ofBytes page))
  | some .leaf => .ok (.leaf (Leaf.ofBytes page))
  | some .overflow => .ok (.overflow (Overflow.ofBytes page))

end PagedMap
