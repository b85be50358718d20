import PagedMap.Proofs.Tree.Iterations

/-!
# What a tree tells

On pages that keep a tree, each question to the tree has one answer: the one that a map gives. It is
given unless the pager fails, whatever else the pager does.
-/

namespace PagedMap

variable {σ : Type} [Pager σ] [AtomicPager σ]

/-- Questions to a tree on pages are answered as by a map. An iteration may end early; otherwise it
passes all entries and then finds no more. -/
structure Tree.Tells (σ : Type) [Pager σ] [AtomicPager σ] (contents : Contents) (tree : Tree)
    (pages : List Page) : Prop where
  get? : ∀ key, Consults pages (tree.get? key : TreeM σ (Option Bytes)) (· = contents key)
  contains : ∀ key, Consults pages (tree.contains key : TreeM σ Bool) (· = (contents key).isSome)
  entries : ∃ entries, Lists contents entries ∧
    (∀ most, Consults pages (tree.entries most : TreeM σ (List Entry)) (· = entries.take most)) ∧
    Consults pages (tree.size : TreeM σ Nat) (· = entries.length)

theorem Keeps.tells {limit : Nat} {pages : List Page} {tree : Tree} {outline : Outline}
    {contents : Contents} (keeps : Keeps limit pages tree outline contents) :
    tree.Tells σ contents pages where
  get? := keeps.get?_consults
  contains := keeps.contains_consults
  entries := by
    refine ⟨outline.entries contents, keeps.retains.lists, keeps.retains.entries_consults, ?_⟩
    have sized := keeps.retains.size_consults (σ := σ)
    rw [← List.length_map (Cursor.entryOf contents)] at sized
    exact sized

end PagedMap
