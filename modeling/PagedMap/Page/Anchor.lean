import PagedMap.Page.Basic
import PagedMap.Text.Quoted
import PagedMap.Text.Utf8

/-!
# Anchors

The anchor of a tree says where its root is, which leaf ends the chain of leaves, and how many
transactions have been committed. It is stored in a page of its own, behind a magic number and a
format version.
-/

namespace PagedMap

/-- Where a tree begins and ends. -/
structure Anchor where
  /-- The root, a leaf or a node. -/
  root : PageIndex
  /-- The empty leaf that follows the last leaf. -/
  sentinel : PageIndex
  /-- The number of commits. -/
  sequence : UInt64
deriving DecidableEq, Repr

/-- The reasons why a page does not hold an anchor. -/
inductive AnchorError where
  | wrongKind (kind : UInt8)
  | invalidMagic (magic : Bytes)
  | unsupportedVersion (version : UInt64)
deriving DecidableEq, Repr

def AnchorError.message : AnchorError → String
  | wrongKind kind => s!"expected a meta page, found kind 0x{Text.hexByte kind}"
  | invalidMagic magic => s!"invalid magic number: {Text.quote (Text.Utf8.decode magic)}"
  | unsupportedVersion version => s!"unsupported format version: {version}"

namespace Anchor

/-- The eight bytes that tell an anchor page from others: `PAGETREE`. -/
def magic : Bytes := [80, 65, 71, 69, 84, 82, 69, 69]

def formatVersion : UInt64 := 1

def fields (anchor : Anchor) : Bytes :=
  magic ++ Bytes.ofUInt64 formatVersion ++ Bytes.ofIndex anchor.root ++
    Bytes.ofIndex anchor.sentinel ++ Bytes.ofUInt64 anchor.sequence

def toPage (anchor : Anchor) : Page :=
  (Page.ofKind .anchor).overwrite headerSize anchor.fields (by
    simp [fields, magic, headerSize, pageSize])

def ofPage (page : Page) : Except AnchorError Anchor :=
  if page.kind? ≠ some .anchor then
    .error (.wrongKind page.kindByte)
  else if page.slice 8 8 ≠ magic then
    .error (.invalidMagic (page.slice 8 8))
  else if Bytes.toUInt64 (page.slice 16 8) ≠ formatVersion then
    .error (.unsupportedVersion (Bytes.toUInt64 (page.slice 16 8)))
  else
    .ok {
      root := Bytes.toIndex (page.slice 24 8)
      sentinel := Bytes.toIndex (page.slice 32 8)
      sequence := Bytes.toUInt64 (page.slice 40 8) }

end Anchor

end PagedMap
