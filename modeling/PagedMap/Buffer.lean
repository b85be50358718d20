import PagedMap.Bytes
import PagedMap.Fault

/-!
# Buffers of fixed size

A buffer holds a fixed number of bytes. A run of them may be read or overwritten, and the run may
be placed by its distance from either end of the buffer. A run that does not lie within the buffer
is a fault.
-/

namespace PagedMap

/-- A run of `size` bytes that are read and overwritten in place. -/
structure Buffer (size : Nat) where
  bytes : Bytes
  length_bytes : bytes.length = size
deriving DecidableEq

/-- The end of a buffer from which distances are measured. -/
inductive Side where
  | front
  | back
deriving DecidableEq, Repr

namespace Side

/-- Where a run of `length` bytes begins that keeps `distance` bytes from this side. -/
def place (side : Side) (size distance length : Nat) : Nat :=
  match side with
  | front => distance
  | back => size - distance - length

/-- Puts a run nearer to this side than another, both in the order of the buffer. -/
def join (side : Side) (near far : Bytes) : Bytes :=
  match side with
  | front => near ++ far
  | back => far ++ near

/-- Turns a list that starts at this side into one in the order of the buffer, and back. -/
def arrange {α : Type} (side : Side) (items : List α) : List α :=
  match side with
  | front => items
  | back => items.reverse

@[simp]
theorem length_join (side : Side) (near far : Bytes) :
    (side.join near far).length = near.length + far.length := by
  cases side <;> simp [join, Nat.add_comm]

@[simp]
theorem arrange_arrange {α : Type} (side : Side) (items : List α) :
    side.arrange (side.arrange items) = items := by
  cases side <;> simp [arrange]

end Side

namespace Buffer

variable {size : Nat}

@[ext]
theorem ext {left right : Buffer size} (same : left.bytes = right.bytes) : left = right := by
  cases left
  cases right
  cases same
  rfl

def zero (size : Nat) : Buffer size := ⟨List.replicate size 0, by simp⟩

/-- The bytes as a buffer: cut or filled up with zeros to the size. -/
def ofBytes (size : Nat) (bytes : Bytes) : Buffer size :=
  ⟨bytes.take size ++ List.replicate (size - bytes.length) 0, by simp; omega⟩

def slice (buffer : Buffer size) (start length : Nat) : Bytes :=
  (buffer.bytes.drop start).take length

/-- The buffer with `data` in place of the bytes from `start` on. -/
def overwrite (buffer : Buffer size) (start : Nat) (data : Bytes)
    (fits : start + data.length ≤ size) : Buffer size :=
  ⟨buffer.bytes.take start ++ (data ++ buffer.bytes.drop (start + data.length)), by
    have := buffer.length_bytes
    simp
    omega⟩

def read (buffer : Buffer size) (side : Side) (distance length : Nat) : Except Fault Bytes :=
  if distance + length ≤ size then
    .ok (buffer.slice (side.place size distance length) length)
  else
    .error .range

def write (buffer : Buffer size) (side : Side) (distance : Nat) (data : Bytes) :
    Except Fault (Buffer size) :=
  if fits : distance + data.length ≤ size then
    .ok (buffer.overwrite (side.place size distance data.length) data (by
      cases side <;> simp only [Side.place] <;> omega))
  else
    .error .range

end Buffer

end PagedMap
