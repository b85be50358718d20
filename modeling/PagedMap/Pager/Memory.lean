import PagedMap.Pager.Basic

/-!
# Pages in memory

A pager that keeps its pages in a list.
-/

namespace PagedMap

/-- Pages kept in memory. -/
structure Memory where
  pages : List Page := []

namespace Memory

/-- The list with some of its elements, from a position on, replaced and perhaps continued. -/
def splice {α : Type} (list : List α) (position : Nat) (replacement : List α) : List α :=
  list.take position ++ replacement ++ list.drop (position + replacement.length)

instance : Pager Memory where
  readPages start amount := do
    let position ← PageIndex.position start
    let pages := (← get).pages
    if position + amount > pages.length then
      throw (.outOfBounds start pages.length)
    return (pages.drop position).take amount
  writePages written start := do
    let count := (← get).pages.length
    let position ← match start with
      | some index => PageIndex.position index
      | none => pure count
    if position > count then
      throw (.outOfBounds (← PageIndex.ofPosition position) count)
    let first ← PageIndex.ofPosition position
    modify fun memory => { memory with pages := splice memory.pages position written }
    return first
  sync := return ()
  pageCount := return (← get).pages.length

end Memory

end PagedMap
