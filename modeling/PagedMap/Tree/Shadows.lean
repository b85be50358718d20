import PagedMap.Bytes

/-!
# Shadow copies

Which pages a transaction has copied before it overwrote them, and where the copies are. The pages
are kept in ascending order.
-/

namespace PagedMap

/-- A page and the page that holds its copy. -/
structure Shadow where
  page : PageIndex
  copy : PageIndex
deriving DecidableEq, Repr

abbrev Shadows := List Shadow

namespace Shadows

/-- Whether a page has been copied. -/
def covers (shadows : Shadows) (index : PageIndex) : Bool :=
  shadows.any fun shadow => shadow.page = index

/-- The copies with one more, in the order of the pages that were copied. -/
def insert (shadow : Shadow) : Shadows → Shadows
  | [] => [shadow]
  | first :: rest =>
    if shadow.page < first.page then
      shadow :: first :: rest
    else
      first :: insert shadow rest

end Shadows

end PagedMap
