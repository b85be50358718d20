/-!
# Byte strings

Byte strings are lists of bytes, ordered lexicographically as lists are. Numbers are stored with
their lowest byte first.
-/

namespace PagedMap

/-- A string of bytes, in the lexicographic order of lists. -/
abbrev Bytes := List UInt8

/-- A page number as it is stored; negative numbers name no page. -/
abbrev PageIndex := Int64

namespace Bytes

/-- The lowest `width` bytes of a number, the lowest first. -/
def ofNat (width value : Nat) : Bytes :=
  match width with
  | 0 => []
  | width + 1 => UInt8.ofNat value :: ofNat width (value / 256)

/-- The number whose bytes are given, the lowest first. -/
def toNat : Bytes → Nat
  | [] => 0
  | byte :: rest => byte.toNat + 256 * toNat rest

def ofUInt16 (word : UInt16) : Bytes := ofNat 2 word.toNat

def ofUInt64 (word : UInt64) : Bytes := ofNat 8 word.toNat

/-- The eight bytes of a page index, in two's complement. -/
def ofIndex (index : PageIndex) : Bytes := ofUInt64 index.toUInt64

def toUInt16 (bytes : Bytes) : UInt16 := UInt16.ofNat (toNat bytes)

def toUInt64 (bytes : Bytes) : UInt64 := UInt64.ofNat (toNat bytes)

def toIndex (bytes : Bytes) : PageIndex := (toUInt64 bytes).toInt64

@[simp]
theorem length_ofNat (width value : Nat) : (ofNat width value).length = width := by
  induction width generalizing value with
  | zero => rfl
  | succ width ih => simp [ofNat, ih]

/-- Reading back what was written keeps as much of a number as its bytes can hold. -/
theorem toNat_ofNat (width value : Nat) :
    toNat (ofNat width value) = value % Nat.pow 256 width := by
  induction width generalizing value with
  | zero => exact (Nat.mod_one value).symm
  | succ width ih =>
    have wider : Nat.pow 256 (width + 1) = 256 * Nat.pow 256 width := Nat.mul_comm ..
    simp only [ofNat, toNat, ih, UInt8.toNat_ofNat', wider, Nat.mod_mul]

/-- Bytes are the bytes of the number that they make up. -/
theorem ofNat_toNat (bytes : Bytes) : ofNat bytes.length (toNat bytes) = bytes := by
  induction bytes with
  | nil => rfl
  | cons byte rest ih =>
    have low : UInt8.ofNat (byte.toNat + 256 * toNat rest) = byte := by
      apply UInt8.toNat_inj.mp
      have := byte.toNat_lt
      simp only [UInt8.toNat_ofNat']
      omega
    have high : (byte.toNat + 256 * toNat rest) / 256 = toNat rest := by
      have := byte.toNat_lt
      omega
    rw [List.length_cons, ofNat, toNat, low, high, ih]

theorem toNat_lt (bytes : Bytes) : toNat bytes < Nat.pow 256 bytes.length := by
  induction bytes with
  | nil => exact Nat.one_pos
  | cons byte rest ih =>
    have := byte.toNat_lt
    have wider : Nat.pow 256 (rest.length + 1) = 256 * Nat.pow 256 rest.length :=
      Nat.mul_comm ..
    simp only [toNat, List.length_cons, wider]
    omega

@[simp]
theorem length_ofUInt16 (word : UInt16) : (ofUInt16 word).length = 2 := length_ofNat ..

@[simp]
theorem length_ofUInt64 (word : UInt64) : (ofUInt64 word).length = 8 := length_ofNat ..

@[simp]
theorem length_ofIndex (index : PageIndex) : (ofIndex index).length = 8 := length_ofNat ..

@[simp]
theorem toUInt16_ofUInt16 (word : UInt16) : toUInt16 (ofUInt16 word) = word := by
  apply UInt16.toNat_inj.mp
  have := word.toNat_lt
  simp only [toUInt16, ofUInt16, toNat_ofNat, Nat.pow_eq, UInt16.toNat_ofNat']
  omega

@[simp]
theorem toUInt64_ofUInt64 (word : UInt64) : toUInt64 (ofUInt64 word) = word := by
  apply UInt64.toNat_inj.mp
  have := word.toNat_lt
  simp only [toUInt64, ofUInt64, toNat_ofNat, Nat.pow_eq, UInt64.toNat_ofNat']
  omega

@[simp]
theorem toIndex_ofIndex (index : PageIndex) : toIndex (ofIndex index) = index := by
  simp [toIndex, ofIndex]

/-- Any eight bytes are those of an index. -/
theorem ofIndex_toIndex {bytes : Bytes} (length_eq : bytes.length = 8) :
    ofIndex (toIndex bytes) = bytes := by
  have bounded := toNat_lt bytes
  rw [length_eq] at bounded
  have kept : (UInt64.ofNat (toNat bytes)).toNat = toNat bytes := by
    rw [UInt64.toNat_ofNat']
    exact Nat.mod_eq_of_lt bounded
  simp only [ofIndex, toIndex, toUInt64, ofUInt64, UInt64.toUInt64_toInt64, kept]
  rw [← length_eq]
  exact ofNat_toNat bytes

end Bytes

end PagedMap
