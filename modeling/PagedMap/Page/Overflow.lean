import PagedMap.Page.Basic
import PagedMap.Word

/-!
# Overflow pages

An overflow page holds a part of a value that is too long for a leaf, and the index of the page
with the part that follows, or 0 after the last part. The part lies at the back of the body, and
the header says how long it is.
-/

namespace PagedMap

/-- The bytes of a value that one overflow page can hold. -/
def overflowCapacity : Nat := pageSize - headerSize - 8

/-- A page with a part of a long value. -/
structure Overflow where
  counters : Counters
  /-- The page with the part that follows, or 0. -/
  next : PageIndex
  body : Buffer overflowCapacity
deriving DecidableEq

namespace Overflow

def empty (next : PageIndex) : Overflow := ⟨.zero, next, .zero overflowCapacity⟩

def toPage (overflow : Overflow) : Page :=
  ⟨Kind.overflow.byte ::
      (overflow.counters.encode ++ (Bytes.ofIndex overflow.next ++ overflow.body.bytes)), by
    simp [overflow.body.length_bytes, overflowCapacity, pageSize, headerSize]⟩

/-- The body takes up what the header and the link leave of a page. -/
theorem length_body (page : Page) :
    (page.bytes.drop (headerSize + 8)).length = overflowCapacity := by
  simp [page.length_bytes, overflowCapacity, pageSize, headerSize]

/-- The part that a page stores, if its kind is not looked at. -/
def ofBytes (page : Page) : Overflow where
  counters := page.counters
  next := Bytes.toIndex (page.slice headerSize 8)
  body := ⟨page.bytes.drop (headerSize + 8), length_body page⟩

def ofPage (page : Page) : Except Fault Overflow := do
  Fault.require (page.kind? = some .overflow) (.notOverflow page.kindByte)
  return ofBytes page

def length (overflow : Overflow) : Nat := overflow.counters.tail.toNat

/-- The bytes that the page can still take. -/
def free (overflow : Overflow) : Except Fault Nat := Word.sub overflowCapacity overflow.length

/-- The part of the value. It ends where the page ends, and a length beyond the capacity makes it
reach back into the header. -/
def data (overflow : Overflow) : Except Fault Bytes :=
  overflow.toPage.read .back 0 overflow.length

/-- Stores as many of the last bytes of a value as fit, in front of what the page holds. Gives back
the bytes that did not fit. -/
def store (overflow : Overflow) (value : Bytes) : Except Fault (Overflow × Bytes) := do
  let taken := min value.length (← overflow.free)
  let rest := value.take (value.length - taken)
  let stored := value.drop (value.length - taken)
  let body ← overflow.body.write .back overflow.length stored
  let counters := { overflow.counters with tail := UInt16.ofNat (overflow.length + taken) }
  return ({ overflow with counters, body }, rest)

@[ext]
theorem ext {left right : Overflow} (counters : left.counters = right.counters)
    (next : left.next = right.next) (body : left.body = right.body) : left = right := by
  cases left
  cases right
  simp_all

theorem ofBytes_toPage (overflow : Overflow) : ofBytes overflow.toPage = overflow := by
  have countersDropped :
      (overflow.counters.encode ++
          (Bytes.ofIndex overflow.next ++ overflow.body.bytes)).drop 7 =
        Bytes.ofIndex overflow.next ++ overflow.body.bytes := List.drop_left' (by simp)
  ext : 1
  · simp only [ofBytes, toPage, Page.counters, Buffer.slice, List.drop_succ_cons, List.drop_zero]
    rw [List.take_left' (by simp), Counters.decode_encode]
  · simp only [ofBytes, toPage, Buffer.slice, headerSize, List.drop_succ_cons, countersDropped]
    rw [List.take_left' (by simp), Bytes.toIndex_ofIndex]
  · apply Buffer.ext
    simp only [ofBytes, toPage, headerSize, List.drop_succ_cons]
    rw [Nat.add_comm, ← List.drop_drop, countersDropped, List.drop_left' (by simp)]

/-- What an empty page does not take of a value that is not empty is shorter than the value. -/
theorem length_rest_lt {next : PageIndex} {value rest : Bytes} {filled : Overflow}
    (nonempty : value ≠ []) (stored : (empty next).store value = .ok (filled, rest)) :
    rest.length < value.length := by
  have positive : 0 < value.length := List.length_pos_iff.mpr nonempty
  simp only [store, free, Word.sub, length, empty, Counters.zero, bind, Except.bind, pure,
    Except.pure] at stored
  split at stored
  · contradiction
  · rename_i amount available
    simp only [UInt16.toNat_zero, Nat.zero_le, if_true, Except.ok.injEq] at available
    split at stored
    · contradiction
    · simp only [Except.ok.injEq, Prod.mk.injEq] at stored
      obtain ⟨-, rfl⟩ := stored
      subst available
      simp [overflowCapacity, pageSize, headerSize]
      omega

end Overflow

end PagedMap
