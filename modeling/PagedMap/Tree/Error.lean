import PagedMap.Page.Anchor
import PagedMap.Pager.Basic

/-!
# Errors of a tree

The reasons why an operation on a tree fails, from the pager underneath up to the tree itself.
-/

namespace PagedMap

/-- The reasons why an operation on a tree fails. -/
inductive TreeError where
  /-- The pager failed. -/
  | pager (cause : PagerError)
  /-- The anchor page holds something else. -/
  | formatMismatch (cause : AnchorError)
  /-- A page has a kind that does not belong where it is. -/
  | unexpectedPage (index : PageIndex) (kind : UInt8)
  /-- An encoded value cannot be decoded. -/
  | corruptValue (reason : String)
  | keyTooLarge (size limit : Nat)
  | notImplemented (operation : String)
  /-- The transaction has ended. -/
  | transactionClosed
deriving DecidableEq, Repr

namespace TreeError

def message : TreeError → String
  | pager cause => s!"pager error: {cause.message}"
  | formatMismatch cause => s!"format mismatch: {cause.message}"
  | unexpectedPage index kind =>
    s!"unexpected page kind 0x{Text.hexByte kind} at page {index.toInt}"
  | corruptValue reason => s!"corrupt value: {reason}"
  | keyTooLarge size limit => s!"key of {size} bytes exceeds the maximum of {limit}"
  | notImplemented operation => s!"{operation} is not implemented"
  | transactionClosed => "transaction already closed"

/-- The texts of the errors behind an error, the nearest first. -/
def causes : TreeError → List String
  | pager cause => cause.message :: cause.causes
  | formatMismatch cause => [cause.message]
  | unexpectedPage .. | corruptValue _ | keyTooLarge .. | notImplemented _ | transactionClosed => []

/-- Whether the pager failed, so that a change may be half done. -/
def isPagerFailure : TreeError → Bool
  | pager _ => true
  | formatMismatch _ | unexpectedPage .. | corruptValue _ | keyTooLarge .. | notImplemented _
  | transactionClosed => false

end TreeError

end PagedMap
