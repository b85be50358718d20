import PagedMap.Page.Overflow
import PagedMap.Proofs.Page.Sides
import PagedMap.Proofs.Yielding

/-!
# Overflow pages hold parts of values

Storing the last bytes of a value in an empty overflow page takes as many of them as fit, and the
page gives them back.
-/

namespace PagedMap.Overflow

theorem data_eq {overflow : Overflow} {part : Bytes} (length_eq : overflow.length = part.length)
    (fits : part.length ≤ overflowCapacity)
    (stored : (overflow.body.seen .back).take part.length = part.reverse) :
    overflow.data = .ok part := by
  have inside : 0 + part.length ≤ pageSize := by
    simp only [overflowCapacity, pageSize] at fits ⊢
    omega
  have front : overflow.toPage.seen .back =
      overflow.body.seen .back ++ (Kind.overflow.byte ::
        (overflow.counters.encode ++ Bytes.ofIndex overflow.next)).reverse := by
    simp [Buffer.seen, Side.arrange, toPage]
  rw [data, length_eq, Buffer.read_eq_ok inside, List.drop_zero, front,
    List.take_append_of_le_length (by rw [Buffer.length_seen]; exact fits), stored]
  exact congrArg Except.ok (List.reverse_reverse part)

/-- The last bytes of the body, as many as the page claims to store. -/
def claimed (overflow : Overflow) : Bytes :=
  overflow.body.bytes.drop (overflowCapacity - overflow.length)

theorem claimed_empty (next : PageIndex) : (empty next).claimed = [] := by
  apply List.drop_eq_nil_of_le
  rw [(empty next).body.length_bytes]
  exact Nat.le_refl _

/-- A page that claims no more bytes than it has room for gives them. -/
theorem data_of_bounded {overflow : Overflow} (bounded : overflow.length ≤ overflowCapacity) :
    overflow.data = .ok overflow.claimed := by
  have length_body := overflow.body.length_bytes
  have length_claimed : overflow.claimed.length = overflow.length := by
    rw [claimed, List.length_drop]
    omega
  apply data_eq length_claimed.symm (by omega)
  rw [length_claimed]
  change overflow.body.bytes.reverse.take overflow.length = _
  rw [List.take_reverse, length_body]
  rfl

/-- An overflow page takes the end of a value, as much of it as it has room for. -/
theorem store_yields (next : PageIndex) (value : Bytes) :
    Yields ((empty next).store value) fun (filled, rest) =>
      filled.next = next ∧ ∃ part, filled.data = .ok part ∧ rest ++ part = value ∧
        part.length = min value.length overflowCapacity := by
  have available : (empty next).free = .ok overflowCapacity := rfl
  have taken : (value.drop (value.length - min value.length overflowCapacity)).length =
      min value.length overflowCapacity := by
    rw [List.length_drop]
    omega
  rcases (empty next).body.exists_write_eq_ok .back (empty next).length
    (value.drop (value.length - min value.length overflowCapacity))
    (by rw [taken, show (empty next).length = 0 from rfl]; omega) with ⟨body, writes, seen_eq⟩
  rw [store, bind_of_eq_ok available]
  simp only [bind_of_eq_ok writes]
  refine Yields.pure ⟨rfl, _, data_eq ?_ ?_ ?_, List.take_append_drop .., taken⟩
  · have bounded : min value.length overflowCapacity ≤ overflowCapacity := Nat.min_le_right ..
    simp only [overflowCapacity, pageSize, headerSize] at bounded
    rw [taken, show (empty next).length = 0 from rfl, Nat.zero_add, length]
    simp only [UInt16.toNat_ofNat', overflowCapacity, pageSize, headerSize]
    omega
  · rw [taken]
    exact Nat.min_le_right ..
  · rw [seen_eq, show (empty next).length = 0 from rfl, List.take_zero, List.nil_append,
      List.take_left' (Side.length_arrange ..)]
    rfl

end PagedMap.Overflow
