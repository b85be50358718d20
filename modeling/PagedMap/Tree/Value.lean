import PagedMap.Tree.Reading

/-!
# Values as a leaf stores them

A short value is stored in the leaf, behind the tag 1. Of a long value the leaf holds the first
bytes, behind the tag 2 and the index of the overflow page where the value goes on; its pages are
chained and the last one links to page 0. The last bytes of the value are stored first, so that
every page links to one that is already there.
-/

namespace PagedMap.Value

/-- The tag of a value that is stored as a whole. -/
def fullTag : UInt8 := 1

/-- The tag of a value that goes on in overflow pages. -/
def partialTag : UInt8 := 2

/-- The bytes of the second tag and the index after it. -/
def partialHeaderSize : Nat := 9

variable {σ : Type} [Pager σ]

/-- The outcome of storing the last bytes of a value in overflow pages. -/
structure Spill where
  /-- The first bytes, which stay in the leaf. -/
  inline : Bytes
  /-- The page where the value goes on. -/
  head : PageIndex
  /-- The pages that were appended. -/
  pages : Nat

/-- Stores the last bytes of a value in overflow pages until the rest has room beside the header.
A room that is too small even for the header is never enough. -/
def spill (room : Nat) (rest : Bytes) (head : PageIndex) (pages : Nat) :
    SessionM σ PagerError Spill :=
  if partialHeaderSize + rest.length ≤ room then
    return ⟨rest, head, pages⟩
  else if _empty : rest = [] then
    throw (.fault .endless)
  else
    match stored : (Overflow.empty head).store rest with
    | .error fault => throw (.fault fault)
    | .ok (filled, remaining) => do
      let index ← SessionM.onDevice (Pager.appendPage filled.toPage)
      if index = 0 then
        throw (.fault (.assertion .overflowAtZero))
      spill room remaining index (pages + 1)
termination_by rest.length
decreasing_by exact Overflow.length_rest_lt (by assumption) stored

/-- Encodes a value that is to be stored beside a key, and appends the overflow pages it needs. -/
def encode (keySize : Nat) (value : Bytes) : SessionM σ PagerError Bytes := do
  let size ← Word.add (← Word.add keySize 1) value.length
  if size ≤ maxInlineEntry then
    return fullTag :: value
  let room ← Word.sub maxInlineEntry keySize
  let spilled ← spill room value 0 0
  SessionM.report (.valueSpilled (value.length - spilled.inline.length) spilled.pages spilled.head
    spilled.inline.length)
  return partialTag :: (Bytes.ofIndex spilled.head ++ spilled.inline)

/-- The overflow page where an encoded value goes on, if it does. -/
def overflowHead? (encoded : Bytes) : Option PageIndex :=
  if encoded.head? = some partialTag ∧ partialHeaderSize ≤ encoded.length then
    some (Bytes.toIndex ((encoded.drop 1).take 8))
  else
    none

/-- Reads the parts of a value along their chain, over at most `limit` pages. -/
def follow (limit : Nat) (next : PageIndex) (value : Bytes) : TreeM σ Bytes :=
  if next = 0 then
    return value
  else
    match limit with
    | 0 => SessionM.fail (.corruptValue "overflow chain does not terminate")
    | limit + 1 => do
      match ← TreeM.readView next with
      | .overflow part => follow limit part.next (value ++ (← part.data))
      | other => TreeM.unexpected next other

/-- Decodes a value. A chain that is longer than there are pages goes round for ever. -/
def decode (encoded : Bytes) : TreeM σ Bytes := do
  match encoded with
  | [] => SessionM.fail (.corruptValue "empty encoding")
  | tag :: rest =>
    if tag = fullTag then
      return rest
    else if tag ≠ partialTag then
      SessionM.fail (.corruptValue "unknown value tag")
    else
      match overflowHead? encoded with
      | none => SessionM.fail (.corruptValue "truncated overflow header")
      | some head => follow (← TreeM.pageCount) head (rest.drop 8)

end PagedMap.Value
