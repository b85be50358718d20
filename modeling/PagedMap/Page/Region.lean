import PagedMap.Buffer
import PagedMap.Word

/-!
# Packed regions

A region keeps a list of byte strings, its items, at one side of a buffer: at the side's edge a
table of end offsets, two bytes each, and after it the items, packed. Slot `i` of the table says
where item `i` ends, counted from the start of the packed items. The table has room for a multiple
of sixteen slots, so that most insertions leave the packed items where they are.

```
front:  [end 0][end 1] … [room][item 0][item 1] …
back:              … [item 1][item 0][room] … [end 1][end 0]
```

How many items there are is kept elsewhere and is given to each operation. A region does not know
how far it may grow either: the caller sees to it that two regions of a buffer keep apart. Bytes
that no longer belong to the region stay behind as they are.
-/

namespace PagedMap

/-- The bytes of one table slot. -/
def slotSize : Nat := 2

/-- One more than the largest end that a slot can hold. -/
def slotLimit : Nat := 0x10000

/-- Tables grow and shrink by this many slots at a time. -/
def slotBatch : Nat := 16

/-- The slots that a table has for a number of items. -/
def slotsFor (count : Nat) : Nat := (count + slotBatch - 1) / slotBatch * slotBatch

/-- The number of slots for a word of items, if it is a word again. -/
def reservedSlots (count : Nat) : Except Fault Nat :=
  Word.mul ((count + slotBatch - 1) / slotBatch) slotBatch

/-- The bytes that a table gains, or loses if they are negative, when the number of items changes
from `count` by `delta`. -/
def tableGrowth (count : Nat) (delta : Int) : Except Fault Int := do
  let target := (count : Int) + delta
  Fault.require (0 ≤ target && target < Word.limit) (.countChange count delta)
  let after ← reservedSlots target.toNat
  let before ← reservedSlots count
  let slots ← Word.ofInt (Word.signed after - Word.signed before)
  Word.ofInt (slots * slotSize)

/-- The bytes of the table for a number of items. -/
def tableSize (count : Nat) : Nat := slotsFor count * slotSize

namespace Region

variable {size : Nat}

/-- The numbers stored two bytes each. -/
def ofTable : Bytes → List Nat
  | low :: high :: rest => Bytes.toNat [low, high] :: ofTable rest
  | _ => []

/-- Stores numbers in two bytes each. -/
def toTable (ends : List Nat) : Bytes := ends.flatMap (Bytes.ofNat slotSize)

/-- Where item `index` ends, as its slot says. -/
def itemEnd (side : Side) (buffer : Buffer size) (index : Nat) : Except Fault Nat :=
  return Bytes.toNat (← buffer.read side (slotSize * index) slotSize)

/-- Where item `index` starts: where the item before it ends. The start of the item after the last
one is the size of all packed items. -/
def itemStart (side : Side) (buffer : Buffer size) (index : Nat) : Except Fault Nat :=
  match index with
  | 0 => .ok 0
  | index + 1 => itemEnd side buffer index

/-- The table slots of all items. -/
def itemEnds (side : Side) (buffer : Buffer size) (count : Nat) : Except Fault (List Nat) :=
  return side.arrange (ofTable (← buffer.read side 0 (slotSize * count)))

/-- Writes the table slots of all items. -/
def writeEnds (side : Side) (buffer : Buffer size) (ends : List Nat) :
    Except Fault (Buffer size) :=
  buffer.write side 0 (toTable (side.arrange ends))

/-- The packed bytes between two offsets, in the order of the buffer. -/
def packed (side : Side) (buffer : Buffer size) (count start stop : Nat) :
    Except Fault Bytes := do
  Fault.within (start ≤ stop)
  buffer.read side (tableSize count + start) (stop - start)

/-- Overwrites packed bytes from an offset on. -/
def writePacked (side : Side) (buffer : Buffer size) (count start : Nat) (data : Bytes) :
    Except Fault (Buffer size) :=
  buffer.write side (tableSize count + start) data

/-- The packed bytes of the items from `first` up to but not including `stop`. -/
def items (side : Side) (buffer : Buffer size) (count first stop : Nat) : Except Fault Bytes := do
  packed side buffer count (← itemStart side buffer first) (← itemStart side buffer stop)

/-- Item `index`. -/
def item (side : Side) (buffer : Buffer size) (count index : Nat) : Except Fault Bytes :=
  items side buffer count index (index + 1)

/-- Where the items from `first` up to but not including `stop` end, counted from the start of the
first of them. -/
def endsWithin (side : Side) (buffer : Buffer size) (count first stop : Nat) :
    Except Fault (List Nat) := do
  let start ← itemStart side buffer first
  let ends ← itemEnds side buffer count
  ((ends.drop first).take (stop - first)).mapM fun last => Word.sub last start

/-- The bytes that the region uses: its table and its packed items. -/
def used (side : Side) (buffer : Buffer size) (count : Nat) : Except Fault Nat :=
  return tableSize count + (← itemStart side buffer count)

/-- Inserts items at a position. They come packed, in the order of the buffer, with their ends
counted from the start of the first of them. -/
def insert (side : Side) (buffer : Buffer size) (count position : Nat) (blob : Bytes)
    (blobEnds : List Nat) : Except Fault (Buffer size) := do
  Fault.within (position ≤ count)
  let ends ← itemEnds side buffer count
  let start ← itemStart side buffer position
  let total ← itemStart side buffer count
  let near ← packed side buffer count 0 start
  let far ← packed side buffer count start total
  let moved ← writePacked side buffer (count + blobEnds.length) 0
    (side.join (side.join near blob) far)
  writeEnds side moved
    (ends.take position ++ blobEnds.map (start + ·) ++
      (ends.drop position).map (· + blob.length))

/-- Moves the packed bytes to where they belong once the table has changed its size. -/
def resettle (side : Side) (buffer : Buffer size) (oldCount newCount total : Nat) :
    Except Fault (Buffer size) := do
  if tableSize oldCount = tableSize newCount then
    return buffer
  else
    writePacked side buffer newCount 0 (← packed side buffer oldCount 0 total)

/-- Removes the items from `first` up to but not including `stop`. -/
def remove (side : Side) (buffer : Buffer size) (count first stop : Nat) :
    Except Fault (Buffer size) := do
  if stop ≤ first then
    return buffer
  Fault.within (stop ≤ count)
  let ends ← itemEnds side buffer count
  let start ← itemStart side buffer first
  let last ← itemStart side buffer stop
  let total ← itemStart side buffer count
  let removed ← Word.sub last start
  let far ← packed side buffer count last total
  let closed ← writePacked side buffer count start far
  let later ← (ends.drop stop).mapM fun last => Word.sub last removed
  let listed ← writeEnds side closed (ends.take first ++ later)
  resettle side listed count (count - (stop - first)) (← Word.sub total removed)

/-- Replaces item `index`; the new item may have another length. -/
def replace (side : Side) (buffer : Buffer size) (count index : Nat) (item : Bytes) :
    Except Fault (Buffer size) := do
  let ends ← itemEnds side buffer count
  let start ← itemStart side buffer index
  let last ← itemEnd side buffer index
  let total ← itemStart side buffer count
  let far ← packed side buffer count last total
  let moved ← writePacked side buffer count start (side.join item far)
  -- Slots hold two bytes, so that ends which contradict each other wrap around.
  writeEnds side moved
    (ends.take index ++ (ends.drop index).map fun old =>
      old + (start + item.length) + slotLimit - last)

end Region

end PagedMap
