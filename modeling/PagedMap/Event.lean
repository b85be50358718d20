import PagedMap.Tree.Error

/-!
# Events

What a pager or a tree reports while it works, apart from its answers.
-/

namespace PagedMap

/-- How much an event matters. -/
inductive Event.Level where
  | debug
  | info
  | warn
deriving DecidableEq, Repr

/-- Something worth reporting. -/
inductive Event where
  /-- A storage ended in the middle of a page. -/
  | tailTruncated (torn size : Nat)
  | treeOpened (anchorIndex root : PageIndex) (sequence : UInt64)
  | treeCreated (anchorIndex root sentinel : PageIndex)
  /-- A long value went to overflow pages. -/
  | valueSpilled (spilled pages : Nat) (head : PageIndex) (inline : Nat)
  | leafSplit (index : PageIndex) (half stay move : Nat) (right : PageIndex)
  | nodeSplit (index : PageIndex) (half stay move : Nat) (right : PageIndex)
  | rootGrown (root left right : PageIndex)
  | committed (sequence : UInt64) (shadowed : Nat)
  | rolledBack (restored : Nat)
  /-- A failed write could not be undone. -/
  | undoFailed (error : TreeError)
  | droppedActive
  /-- The rollback of a dropped transaction failed. -/
  | dropFailed (error : TreeError)
deriving DecidableEq, Repr

namespace Event

def Level.word : Level → String
  | debug => "DEBUG"
  | info => "INFO"
  | warn => "WARN"

def level : Event → Level
  | valueSpilled .. | leafSplit .. | nodeSplit .. => .debug
  | treeOpened .. | treeCreated .. | rootGrown .. | committed .. | rolledBack .. => .info
  | tailTruncated .. | undoFailed .. | droppedActive | dropFailed .. => .warn

def message : Event → String
  | tailTruncated torn size =>
    s!"truncating {torn} bytes of a partial trailing page (file size {size})"
  | treeOpened anchorIndex root sequence =>
    s!"opened tree at meta page {anchorIndex.toInt} (root {root.toInt}, sequence {sequence})"
  | treeCreated anchorIndex root sentinel =>
    s!"created tree at meta page {anchorIndex.toInt} (root {root.toInt}, " ++
      s!"sentinel {sentinel.toInt})"
  | valueSpilled spilled pages head inline =>
    s!"spilled {spilled} value bytes to {pages} overflow pages (head {head.toInt}, " ++
      s!"{inline} bytes inline)"
  | leafSplit index half stay move right =>
    s!"split leaf {index.toInt} at {half}: {stay} entries stay, " ++
      s!"{move} move to leaf {right.toInt}"
  | nodeSplit index half stay move right =>
    s!"split node {index.toInt} at {half}: {stay} keys stay, {move} move to node {right.toInt}"
  | rootGrown root left right =>
    s!"tree grew a new root {root.toInt} over pages {left.toInt} and {right.toInt}"
  | committed sequence shadowed =>
    s!"committed transaction {sequence} ({shadowed} pages shadowed)"
  | rolledBack restored => s!"rolled back transaction, restored {restored} pages"
  | undoFailed error => s!"rollback after failed write did not complete: {error.message}"
  | droppedActive => "transaction dropped while active, rolling back"
  | dropFailed error => s!"rollback of dropped transaction failed: {error.message}"

/-- An event as a line: its level and its text. -/
def line (event : Event) : String := event.level.word ++ " " ++ event.message

end Event

end PagedMap
