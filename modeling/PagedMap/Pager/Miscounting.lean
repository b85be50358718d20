import PagedMap.Pager.Basic

/-!
# Pagers that miscount

A pager around another one that passes every call on, but that may give a number of pages other
than the true one. It shows how a reader copes with a count that does not fit the pages.
-/

namespace PagedMap

/-- A pager that may give another number of pages. -/
structure Miscounting (σ : Type) where
  inner : σ
  /-- The number of pages to give in place of the true one. -/
  pretended : Option Nat := none

namespace Miscounting

open Pager (onInner)

variable {σ : Type}

instance : Encloses (Miscounting σ) σ where
  inner := inner
  withInner pager inner := { pager with inner }

instance [Pager σ] : Pager (Miscounting σ) where
  readPages start amount := onInner (Pager.readPages start amount)
  writePages pages start := onInner (Pager.writePages pages start)
  sync := onInner Pager.sync
  pageCount := do
    match (← get).pretended with
    | some count => return count
    | none => onInner Pager.pageCount

end Miscounting

end PagedMap
