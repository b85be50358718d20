import PagedMap.Buffer

/-!
# Buffers seen from a side

Seen from its front a buffer is the list of its bytes, and seen from its back it is the reverse of
that list. From either side, a run that keeps a distance from the side lies at that distance in the
list, so that what is proved of buffers seen from a side holds for both sides.
-/

namespace PagedMap

namespace Side

/-- The side at the other end. -/
def opposite : Side → Side
  | front => back
  | back => front

@[simp]
theorem length_arrange {α : Type} (side : Side) (items : List α) :
    (side.arrange items).length = items.length := by
  cases side <;> simp [arrange]

theorem arrange_join (side : Side) (near far : Bytes) :
    side.arrange (side.join near far) = side.arrange near ++ side.arrange far := by
  cases side <;> simp [arrange, join]

end Side

namespace Buffer

variable {size : Nat}

/-- The bytes in the order in which they follow from a side. -/
def seen (side : Side) (buffer : Buffer size) : Bytes := side.arrange buffer.bytes

@[simp]
theorem length_seen (side : Side) (buffer : Buffer size) : (buffer.seen side).length = size := by
  simp [seen, buffer.length_bytes]

theorem seen_opposite (side : Side) (buffer : Buffer size) :
    buffer.seen side.opposite = (buffer.seen side).reverse := by
  cases side <;> simp [seen, Side.opposite, Side.arrange]

theorem read_eq_ok {buffer : Buffer size} {side : Side} {distance length : Nat}
    (fits : distance + length ≤ size) :
    buffer.read side distance length =
      .ok (side.arrange (((buffer.seen side).drop distance).take length)) := by
  have length_bytes := buffer.length_bytes
  rw [read, if_pos fits]
  cases side with
  | front => rfl
  | back =>
      simp only [seen, slice, Side.arrange, Side.place, List.drop_reverse, List.take_reverse,
        List.reverse_reverse, List.length_take, List.drop_take]
      rw [length_bytes, Nat.min_eq_left (by omega)]
      congr 2
      omega

/-- Within the bounds a write succeeds and replaces just the run of bytes at that distance. -/
theorem exists_write_eq_ok (buffer : Buffer size) (side : Side) (distance : Nat) (data : Bytes)
    (fits : distance + data.length ≤ size) :
    ∃ written, buffer.write side distance data = .ok written ∧
      written.seen side = (buffer.seen side).take distance ++ side.arrange data ++
        (buffer.seen side).drop (distance + data.length) := by
  have length_bytes := buffer.length_bytes
  rw [write, dif_pos fits]
  refine ⟨_, rfl, ?_⟩
  cases side with
  | front => simp [seen, overwrite, Side.arrange, Side.place]
  | back =>
      simp only [seen, overwrite, Side.arrange, Side.place, List.reverse_append,
        List.drop_reverse, List.take_reverse, List.append_assoc, length_bytes]
      rw [show size - distance - data.length + data.length = size - distance by omega,
        show size - (distance + data.length) = size - distance - data.length by omega]

theorem fits_of_write {buffer written : Buffer size} {side : Side} {distance : Nat} {data : Bytes}
    (writes : buffer.write side distance data = .ok written) : distance + data.length ≤ size := by
  rw [write] at writes
  split at writes
  next fits => exact fits
  next => cases writes

/-- A read that succeeds was within the bounds and tells the bytes there. -/
theorem of_read {buffer : Buffer size} {side : Side} {distance length : Nat} {bytes : Bytes}
    (reads : buffer.read side distance length = .ok bytes) :
    distance + length ≤ size ∧
      ((buffer.seen side).drop distance).take length = side.arrange bytes := by
  have fits : distance + length ≤ size := by
    rw [read] at reads
    split at reads
    next fits => exact fits
    next => cases reads
  rw [read_eq_ok fits] at reads
  injection reads with reads
  exact ⟨fits, by rw [← reads, Side.arrange_arrange]⟩

/-- Two buffers that agree but for the bytes nearest to a side. -/
def AgreeBeyond (side : Side) (distance : Nat) (before after : Buffer size) : Prop :=
  (after.seen side).drop distance = (before.seen side).drop distance

namespace AgreeBeyond

variable {side : Side} {before middle after : Buffer size} {distance : Nat}

theorem refl (side : Side) (distance : Nat) (buffer : Buffer size) :
    AgreeBeyond side distance buffer buffer := rfl

theorem trans (first : AgreeBeyond side distance before middle)
    (second : AgreeBeyond side distance middle after) :
    AgreeBeyond side distance before after :=
  Eq.trans second first

theorem mono {larger : Nat} (agree : AgreeBeyond side distance before after)
    (le : distance ≤ larger) : AgreeBeyond side larger before after := by
  have further : larger = distance + (larger - distance) := by omega
  simp only [AgreeBeyond] at agree ⊢
  rw [further, ← List.drop_drop, ← List.drop_drop, agree]

theorem take_opposite (agree : AgreeBeyond side distance before after) {length : Nat}
    (apart : distance + length ≤ size) :
    (after.seen side.opposite).take length = (before.seen side.opposite).take length := by
  have last : AgreeBeyond side (size - length) before after := agree.mono (by omega)
  simp only [AgreeBeyond] at last
  rw [seen_opposite, seen_opposite, List.take_reverse, List.take_reverse, length_seen, length_seen,
    last]

end AgreeBeyond

theorem agreeBeyond_of_seen_eq {side : Side} {before after : Buffer size} {distance : Nat}
    {data : Bytes} (fits : distance + data.length ≤ size)
    (seen_eq : after.seen side = (before.seen side).take distance ++ side.arrange data ++
        (before.seen side).drop (distance + data.length)) :
    AgreeBeyond side (distance + data.length) before after := by
  simp only [AgreeBeyond]
  rw [seen_eq, List.drop_left']
  simp
  omega

end Buffer

end PagedMap
