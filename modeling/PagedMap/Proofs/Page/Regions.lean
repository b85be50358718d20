import PagedMap.Page.Region
import PagedMap.Proofs.Page.Sides
import PagedMap.Proofs.Page.Weights

/-!
# Regions hold lists

A side of a buffer holds a list of byte strings if its table has the ends of the packed items and
the items follow behind the table. Reading gives back the items, and inserting, removing and
replacing do to the list what their names say. Beyond the bytes that the region uses before or
after, an operation changes nothing, which keeps the regions at the two sides of a buffer apart.

A position in a list is given by the lists before and behind it.
-/

namespace PagedMap.Region

variable {size : Nat} {side : Side}

/-- Where each item ends, if the items are packed from an offset on. -/
def endsFrom (offset : Nat) : List Bytes → List Nat
  | [] => []
  | item :: rest => (offset + item.length) :: endsFrom (offset + item.length) rest

/-- Packed items in the order of the buffer. -/
def pack (side : Side) (items : List Bytes) : Bytes := (side.arrange items).flatten

/-- Packed items as they are seen from their side. -/
def spread (side : Side) (items : List Bytes) : Bytes := items.flatMap side.arrange

/-- Table slots as they are seen from their side. -/
def slots (side : Side) (ends : List Nat) : Bytes :=
  ends.flatMap fun last => side.arrange (Bytes.ofNat slotSize last)

/-- The bytes that a region uses for items. -/
def footprint (items : List Bytes) : Nat := tableSize items.length + items.flatten.length

/-- A side of a buffer holds items. -/
structure Holds (side : Side) (buffer : Buffer size) (items : List Bytes) : Prop where
  table : (buffer.seen side).take (slotSize * items.length) = slots side (endsFrom 0 items)
  packed : ((buffer.seen side).drop (tableSize items.length)).take items.flatten.length =
    spread side items
  fits : footprint items ≤ size

/-! ## Lists and their layout -/

theorem slots_le_tableSize (count : Nat) : slotSize * count ≤ tableSize count := by
  simp only [tableSize, slotsFor, slotSize, slotBatch]
  omega

@[simp]
theorem length_endsFrom (offset : Nat) (items : List Bytes) :
    (endsFrom offset items).length = items.length := by
  induction items generalizing offset with
  | nil => rfl
  | cons item rest ih => simp [endsFrom, ih]

theorem endsFrom_append (offset : Nat) (front back : List Bytes) :
    endsFrom offset (front ++ back) =
      endsFrom offset front ++ endsFrom (offset + front.flatten.length) back := by
  induction front generalizing offset with
  | nil => simp [endsFrom]
  | cons item rest ih => simp [endsFrom, ih, Nat.add_assoc]

theorem endsFrom_add (offset shift : Nat) (items : List Bytes) :
    endsFrom (offset + shift) items = (endsFrom offset items).map (· + shift) := by
  induction items generalizing offset with
  | nil => rfl
  | cons item rest ih => simp [endsFrom, ← ih, Nat.add_right_comm]

theorem map_add_endsFrom (offset : Nat) (items : List Bytes) :
    (endsFrom 0 items).map (offset + ·) = endsFrom offset items := by
  have shifted := endsFrom_add 0 offset items
  rw [Nat.zero_add] at shifted
  rw [shifted]
  apply List.map_congr_left
  intro last _
  exact Nat.add_comm offset last

theorem mapM_sub_endsFrom (offset shift : Nat) (items : List Bytes) :
    (endsFrom (offset + shift) items).mapM (fun last => Word.sub last shift) =
      .ok (endsFrom offset items) := by
  rw [endsFrom_add]
  generalize endsFrom offset items = ends
  induction ends with
  | nil => rfl
  | cons last rest ih =>
      rw [List.map_cons, List.mapM_cons, Word.sub_eq_ok (by omega), Nat.add_sub_cancel]
      simp only [bind, Except.bind, pure, Except.pure] at ih ⊢
      rw [ih]

theorem le_of_mem_endsFrom {offset last : Nat} {items : List Bytes}
    (mem : last ∈ endsFrom offset items) :
    offset ≤ last ∧ last ≤ offset + items.flatten.length := by
  induction items generalizing offset with
  | nil => cases mem
  | cons item rest ih =>
      simp only [endsFrom, List.mem_cons, List.flatten_cons, List.length_append] at mem ⊢
      rcases mem with rfl | mem
      · omega
      · have := ih mem
        omega

@[simp]
theorem arrange_pack (side : Side) (items : List Bytes) :
    side.arrange (pack side items) = spread side items := by
  cases side with
  | front =>
      have same : Side.front.arrange = (id : Bytes → Bytes) := rfl
      simp only [pack, spread, List.flatMap_def, same, List.map_id]
      rfl
  | back =>
      have same : Side.back.arrange = (List.reverse : Bytes → Bytes) := rfl
      simp [Side.arrange, pack, spread, List.reverse_flatten, List.flatMap_def, same]

@[simp]
theorem arrange_spread (side : Side) (items : List Bytes) :
    side.arrange (spread side items) = pack side items := by
  rw [← arrange_pack, Side.arrange_arrange]

@[simp]
theorem length_pack (side : Side) (items : List Bytes) :
    (pack side items).length = items.flatten.length := by
  cases side <;> simp [pack, Side.arrange, List.length_flatten]

@[simp]
theorem length_spread (side : Side) (items : List Bytes) :
    (spread side items).length = items.flatten.length := by
  rw [← arrange_pack, Side.length_arrange, length_pack]

theorem spread_append (side : Side) (front back : List Bytes) :
    spread side (front ++ back) = spread side front ++ spread side back := by
  simp [spread]

@[simp]
theorem pack_singleton (side : Side) (item : Bytes) : pack side [item] = item := by
  cases side <;> simp [pack, Side.arrange]

@[simp]
theorem length_slots (side : Side) (ends : List Nat) :
    (slots side ends).length = slotSize * ends.length := by
  induction ends with
  | nil => rfl
  | cons last rest ih =>
      simp only [slots, List.flatMap_cons, List.length_append, Side.length_arrange,
        Bytes.length_ofNat, List.length_cons] at ih ⊢
      rw [ih, Nat.mul_succ, Nat.add_comm]

theorem drop_slots (side : Side) (ends : List Nat) (index : Nat) :
    (slots side ends).drop (slotSize * index) = slots side (ends.drop index) := by
  induction ends generalizing index with
  | nil => simp [slots]
  | cons last rest ih =>
      cases index with
      | zero => rfl
      | succ index =>
          have := ih index
          simp only [slots, List.flatMap_cons, List.drop_succ_cons] at this ⊢
          rw [Nat.mul_succ, Nat.add_comm, ← List.drop_drop, List.drop_left' (by simp), this]

@[simp]
theorem arrange_slots (side : Side) (ends : List Nat) :
    side.arrange (slots side ends) = toTable (side.arrange ends) := by
  cases side with
  | front => rfl
  | back =>
      simp only [Side.arrange, slots, toTable, List.flatMap_def]
      simp [List.reverse_flatten, List.map_reverse, Function.comp_def]

theorem ofTable_toTable {ends : List Nat} (small : ∀ last ∈ ends, last < slotLimit) :
    ofTable (toTable ends) = ends := by
  induction ends with
  | nil => rfl
  | cons last rest ih =>
      have := small last List.mem_cons_self
      simp only [slotLimit] at this
      have kept : Bytes.toNat (Bytes.ofNat slotSize last) = last := by
        rw [Bytes.toNat_ofNat]
        exact Nat.mod_eq_of_lt this
      have := ih fun other mem => small other (List.mem_cons_of_mem _ mem)
      simp only [toTable, List.flatMap_cons, slotSize, Bytes.ofNat, List.cons_append,
        List.nil_append, ofTable] at this kept ⊢
      rw [this, kept]

theorem take_drop_of_prefix {α : Type} {list start : List α} {bound : Nat}
    (known : list.take bound = start) (first length : Nat) (within : first + length ≤ bound) :
    (list.drop first).take length = (start.drop first).take length := by
  rw [← known, List.drop_take, List.take_take, Nat.min_eq_left (by omega)]

/-! ## Reading -/

namespace Holds

variable {buffer : Buffer size} {items front middle back : List Bytes} {item : Bytes}

/-- A region holds the same list wherever the bytes that it uses are the same. -/
theorem congr (holds : Holds side buffer items) {other : Buffer size}
    (same : (other.seen side).take (footprint items) = (buffer.seen side).take (footprint items)) :
    Holds side other items := by
  have inTable := slots_le_tableSize items.length
  refine ⟨?_, ?_, holds.fits⟩
  · rw [← holds.table]
    have taken := congrArg (List.take (slotSize * items.length)) same
    rwa [List.take_take, List.take_take, Nat.min_eq_left] at taken
    simp only [footprint]
    omega
  · rw [← holds.packed]
    have dropped := congrArg (List.drop (tableSize items.length)) same
    rwa [List.drop_take, List.drop_take, footprint, Nat.add_sub_cancel_left] at dropped

theorem of_agreeBeyond (side : Side) (holds : Holds side.opposite buffer items)
    {other : Buffer size}
    {distance : Nat} (agree : Buffer.AgreeBeyond side distance buffer other)
    (apart : distance + footprint items ≤ size) : Holds side.opposite other items :=
  holds.congr (agree.take_opposite apart)

theorem end_lt (holds : Holds side buffer items) (small : size < slotLimit) {last : Nat}
    (mem : last ∈ endsFrom 0 items) : last < slotLimit := by
  have := le_of_mem_endsFrom mem
  have := holds.fits
  simp only [footprint] at this
  omega

theorem itemEnds_eq (holds : Holds side buffer items) (small : size < slotLimit) :
    itemEnds side buffer items.length = .ok (endsFrom 0 items) := by
  have inTable := slots_le_tableSize items.length
  have fits := holds.fits
  simp only [footprint] at fits
  rw [itemEnds, Buffer.read_eq_ok (by omega), List.drop_zero, holds.table, arrange_slots]
  have short : ∀ last ∈ side.arrange (endsFrom 0 items), last < slotLimit := by
    intro last mem
    apply holds.end_lt small
    cases side <;> simpa [Side.arrange] using mem
  exact congrArg Except.ok (by rw [ofTable_toTable short, Side.arrange_arrange])

theorem itemEnd_eq (holds : Holds side buffer (front ++ item :: back))
    (small : size < slotLimit) :
    itemEnd side buffer front.length = .ok (front.flatten.length + item.length) := by
  have inTable := slots_le_tableSize (front ++ item :: back).length
  have fits := holds.fits
  simp only [footprint] at fits
  have within : slotSize * front.length + slotSize ≤ slotSize * (front ++ item :: back).length := by
    simp only [List.length_append, List.length_cons, slotSize]
    omega
  have short : front.flatten.length + item.length < slotLimit :=
    holds.end_lt small (by simp [endsFrom_append, endsFrom])
  rw [itemEnd, Buffer.read_eq_ok (by omega), take_drop_of_prefix holds.table _ _ within, drop_slots]
  apply congrArg Except.ok
  simp only [endsFrom_append, Nat.zero_add, endsFrom]
  rw [List.drop_left' (by simp), slots, List.flatMap_cons, List.take_left' (by simp),
    Side.arrange_arrange, Bytes.toNat_ofNat]
  exact Nat.mod_eq_of_lt short

theorem itemStart_eq (holds : Holds side buffer (front ++ back)) (small : size < slotLimit) :
    itemStart side buffer front.length = .ok front.flatten.length := by
  rcases List.eq_nil_or_concat front with rfl | ⟨before, last, rfl⟩
  · rfl
  · rw [List.concat_eq_append, List.append_assoc] at holds
    have ends := holds.itemEnd_eq small
    simpa [itemStart] using ends

theorem itemStart_length (holds : Holds side buffer items) (small : size < slotLimit) :
    itemStart side buffer items.length = .ok items.flatten.length := by
  have whole : Holds side buffer (items ++ []) := by rwa [List.append_nil]
  exact whole.itemStart_eq small

theorem packed_eq (holds : Holds side buffer items) {start stop : Nat} (ordered : start ≤ stop)
    (within : stop ≤ items.flatten.length) :
    Region.packed side buffer items.length start stop =
      .ok (side.arrange (((spread side items).drop start).take (stop - start))) := by
  have fits := holds.fits
  simp only [footprint] at fits
  rw [Region.packed, bind_of_eq_ok (Fault.within_of (by simpa using ordered)),
    Buffer.read_eq_ok (by omega), ← List.drop_drop, take_drop_of_prefix holds.packed _ _ (by omega)]

theorem packed_prefix_eq (holds : Holds side buffer (front ++ back)) :
    Region.packed side buffer (front ++ back).length 0 front.flatten.length =
      .ok (pack side front) := by
  rw [holds.packed_eq (Nat.zero_le _) (by simp)]
  simp [spread_append, List.take_left']

theorem packed_suffix_eq (holds : Holds side buffer (front ++ back)) :
    Region.packed side buffer (front ++ back).length front.flatten.length
        (front ++ back).flatten.length = .ok (pack side back) := by
  rw [holds.packed_eq (by simp) (Nat.le_refl _), spread_append, List.drop_left' (by simp),
    List.take_of_length_le (by simp), arrange_spread]

theorem items_eq (holds : Holds side buffer (front ++ middle ++ back))
    (small : size < slotLimit) :
    Region.items side buffer (front ++ middle ++ back).length front.length
        (front ++ middle).length = .ok (pack side middle) := by
  have first : Holds side buffer (front ++ (middle ++ back)) := by rwa [← List.append_assoc]
  rw [Region.items, bind_of_eq_ok (first.itemStart_eq small),
    bind_of_eq_ok (holds.itemStart_eq small), holds.packed_eq (by simp) (by simp)]
  rw [List.append_assoc, spread_append, List.drop_left' (by simp), spread_append,
    List.take_left' (by simp), arrange_spread]

theorem item_eq (holds : Holds side buffer (front ++ item :: back)) (small : size < slotLimit) :
    Region.item side buffer (front ++ item :: back).length front.length = .ok item := by
  have range : Holds side buffer (front ++ [item] ++ back) := by simpa using holds
  have read := range.items_eq small
  simpa [Region.item] using read

/-- The ends of a range of items are rebased to the start of the range. -/
theorem endsWithin_eq (holds : Holds side buffer (front ++ middle ++ back))
    (small : size < slotLimit) :
    Region.endsWithin side buffer (front ++ middle ++ back).length front.length
        (front ++ middle).length = .ok (endsFrom 0 middle) := by
  have first : Holds side buffer (front ++ (middle ++ back)) := by rwa [← List.append_assoc]
  rw [Region.endsWithin, bind_of_eq_ok (first.itemStart_eq small),
    bind_of_eq_ok (holds.itemEnds_eq small)]
  have range : ((endsFrom 0 (front ++ middle ++ back)).drop front.length).take
      ((front ++ middle).length - front.length) = endsFrom front.flatten.length middle := by
    rw [List.append_assoc, endsFrom_append, List.drop_left' (by simp), endsFrom_append,
      List.take_left' (by simp), Nat.zero_add]
  rw [range]
  have rebased := mapM_sub_endsFrom 0 front.flatten.length middle
  rwa [Nat.zero_add] at rebased

theorem used_eq (holds : Holds side buffer items) (small : size < slotLimit) :
    Region.used side buffer items.length = .ok (footprint items) := by
  rw [Region.used, bind_of_eq_ok (holds.itemStart_length small)]
  rfl

end Holds

end PagedMap.Region
