import PagedMap.Buffer

/-!
# Pages

A page is a buffer of 4096 bytes. Its first eight bytes are the header, the same for every kind of
page: the kind, the number of entries, the bytes used from the front and from the back of the body
(two bytes each), and two bytes that no kind uses. A page of zeros is blank.
-/

namespace PagedMap

def pageSize : Nat := 4096

def headerSize : Nat := 8

/-- A run of bytes that is read and written as a whole. -/
abbrev Page := Buffer pageSize

/-- What a page is used for. -/
inductive Kind where
  /-- Never written, or all zeros. -/
  | blank
  /-- Names the root of a tree. -/
  | anchor
  /-- Routes a search to one of its children. -/
  | node
  /-- Holds entries of the map. -/
  | leaf
  /-- Holds a part of a long value. -/
  | overflow
deriving DecidableEq, Repr

namespace Kind

def byte : Kind → UInt8
  | blank => 0
  | anchor => 1
  | node => 2
  | leaf => 3
  | overflow => 4

/-- All kinds of pages. -/
def all : List Kind := [blank, anchor, node, leaf, overflow]

def ofByte? (byte : UInt8) : Option Kind := all.find? fun kind => kind.byte = byte

@[simp]
theorem ofByte?_byte (kind : Kind) : ofByte? kind.byte = some kind := by
  cases kind <;> rfl

theorem byte_of_ofByte? {byte : UInt8} {kind : Kind} (known : ofByte? byte = some kind) :
    kind.byte = byte := by
  simpa using List.find?_some known

end Kind

/-- The first byte of a page that stands for no kind. -/
structure UnknownKind where
  byte : UInt8
deriving DecidableEq, Repr

def UnknownKind.message (unknown : UnknownKind) : String :=
  s!"unknown page kind: 0x{Text.hexByte unknown.byte}"

/-- The header of a page whose kind is known. -/
structure Header where
  kind : Kind
  count : UInt8
  head : UInt16
  tail : UInt16
deriving DecidableEq, Repr

namespace Header

/-- The eight bytes of a header; the last two are zero. -/
def encode (header : Header) : Bytes :=
  header.kind.byte :: header.count ::
    (Bytes.ofUInt16 header.head ++ Bytes.ofUInt16 header.tail ++ [0, 0])

def decode (bytes : Bytes) : Except UnknownKind Header :=
  match Kind.ofByte? (bytes.headD 0) with
  | none => .error ⟨bytes.headD 0⟩
  | some kind => .ok {
      kind
      count := bytes.getD 1 0
      head := Bytes.toUInt16 ((bytes.drop 2).take 2)
      tail := Bytes.toUInt16 ((bytes.drop 4).take 2) }

theorem decode_encode (header : Header) : decode header.encode = .ok header := by
  simp [decode, encode]

end Header

/-- The header bytes after the kind, as the pages with entries keep them. -/
structure Counters where
  /-- The number of entries. -/
  count : UInt8
  /-- The bytes used from the front of the body. -/
  head : UInt16
  /-- The bytes used from the back of the body. -/
  tail : UInt16
  /-- Two bytes without a meaning, which are kept as they are. -/
  reserved : UInt16
deriving DecidableEq, Repr

namespace Counters

def zero : Counters := ⟨0, 0, 0, 0⟩

/-- The bytes used from both sides of the body. -/
def used (counters : Counters) : Nat := counters.head.toNat + counters.tail.toNat

/-- Counters for a new number of entries and new sizes. The number must fit one byte; of the sizes
the lowest two bytes are kept. -/
def settle (counters : Counters) (count head tail : Nat) : Except Fault Counters :=
  if count < 256 then
    .ok { counters with
      count := UInt8.ofNat count
      head := UInt16.ofNat head
      tail := UInt16.ofNat tail }
  else
    .error (.assertion (.countTooLarge count))

def encode (counters : Counters) : Bytes :=
  counters.count ::
    (Bytes.ofUInt16 counters.head ++ Bytes.ofUInt16 counters.tail ++
      Bytes.ofUInt16 counters.reserved)

def decode (bytes : Bytes) : Counters where
  count := bytes.headD 0
  head := Bytes.toUInt16 ((bytes.drop 1).take 2)
  tail := Bytes.toUInt16 ((bytes.drop 3).take 2)
  reserved := Bytes.toUInt16 ((bytes.drop 5).take 2)

@[simp]
theorem length_encode (counters : Counters) : counters.encode.length = 7 := by
  simp [encode]

@[simp]
theorem decode_encode (counters : Counters) : decode counters.encode = counters := by
  have passed : (Bytes.ofUInt16 counters.head).drop 4 = [] := List.drop_eq_nil_of_le (by simp)
  have taken : (Bytes.ofUInt16 counters.reserved).take 2 = Bytes.ofUInt16 counters.reserved :=
    List.take_of_length_le (by simp)
  simp [decode, encode, List.drop_append, passed, taken]

end Counters

namespace Page

def blank : Page := Buffer.zero pageSize

def ofKind (kind : Kind) : Page := Buffer.ofBytes pageSize [kind.byte]

/-- The first byte, whether or not it stands for a kind. -/
def kindByte (page : Page) : UInt8 := page.bytes.headD 0

/-- The kind, if the first byte stands for one. -/
def kind? (page : Page) : Option Kind := Kind.ofByte? page.kindByte

def header (page : Page) : Except UnknownKind Header :=
  Header.decode (page.slice 0 headerSize)

def counters (page : Page) : Counters :=
  Counters.decode (page.slice 1 7)

def withCounters (page : Page) (counters : Counters) : Page :=
  page.overwrite 1 counters.encode (by simp [pageSize])

/-- The page with another number of entries, which must fit one byte. -/
def setCount (page : Page) (count : Nat) : Except Fault Page := do
  let counters := page.counters
  let settled ← counters.settle count counters.head.toNat counters.tail.toNat
  return page.withCounters settled

/-- The page with another size of its front region, of which two bytes are kept. -/
def setHead (page : Page) (head : Nat) : Page :=
  page.withCounters { page.counters with head := UInt16.ofNat head }

/-- The page with another size of its back region, of which two bytes are kept. -/
def setTail (page : Page) (tail : Nat) : Page :=
  page.withCounters { page.counters with tail := UInt16.ofNat tail }

def readBytes (page : Page) (offset length : Nat) : Except Fault Bytes :=
  page.read .front offset length

def writeBytes (page : Page) (offset : Nat) (data : Bytes) : Except Fault Page :=
  page.write .front offset data

def readUInt16 (page : Page) (offset : Nat) : Except Fault UInt16 :=
  return Bytes.toUInt16 (← page.readBytes offset 2)

def readUInt64 (page : Page) (offset : Nat) : Except Fault UInt64 :=
  return Bytes.toUInt64 (← page.readBytes offset 8)

def readIndex (page : Page) (offset : Nat) : Except Fault PageIndex :=
  return Bytes.toIndex (← page.readBytes offset 8)

def writeUInt16 (page : Page) (offset : Nat) (word : UInt16) : Except Fault Page :=
  page.writeBytes offset (Bytes.ofUInt16 word)

def writeUInt64 (page : Page) (offset : Nat) (word : UInt64) : Except Fault Page :=
  page.writeBytes offset (Bytes.ofUInt64 word)

def writeIndex (page : Page) (offset : Nat) (index : PageIndex) : Except Fault Page :=
  page.writeBytes offset (Bytes.ofIndex index)

/-- A one-line account of a page: the numbers in its header. -/
def summary (page : Page) : String :=
  let numbers := (page.slice 0 headerSize).map fun byte => toString byte.toNat
  "Page \x7b header: [" ++ ", ".intercalate numbers ++ "], .. \x7d"

end Page

end PagedMap
