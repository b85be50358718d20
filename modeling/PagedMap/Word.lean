import PagedMap.Fault

/-!
# Sizes as 64-bit words

Sizes and counts are natural numbers of 64 bits, and differences between them are integers of 64
bits. Sums, differences and products that leave these ranges are faults. A size that is to be
compared with a difference is first read as a signed number.
-/

namespace PagedMap.Word

/-- One more than the largest word. -/
def limit : Nat := 0x10000000000000000

/-- One more than the largest signed word. -/
def signedLimit : Nat := 0x8000000000000000

/-- The sum of two words. -/
def add (left right : Nat) : Except Fault Nat :=
  if left + right < limit then .ok (left + right) else .error .range

/-- The difference of two words, which must not be negative. -/
def sub (left right : Nat) : Except Fault Nat :=
  if right ≤ left then .ok (left - right) else .error .range

/-- The product of two words. -/
def mul (left right : Nat) : Except Fault Nat :=
  if left * right < limit then .ok (left * right) else .error .range

/-- A word read as a signed number in two's complement. -/
def signed (word : Nat) : Int :=
  if word < signedLimit then word else (word : Int) - limit

/-- An integer, if it is a signed word. -/
def ofInt (value : Int) : Except Fault Int :=
  if -signedLimit ≤ value ∧ value < signedLimit then .ok value else .error .range

/-- Whether a size and a difference together exceed a capacity, in signed arithmetic. -/
def exceeds (size : Nat) (grown : Int) (capacity : Nat) : Except Fault Bool := do
  let reached ← ofInt (signed size + grown)
  return reached > capacity

theorem add_eq_ok {left right : Nat} (fits : left + right < limit) :
    add left right = .ok (left + right) := by
  simp [add, fits]

theorem sub_eq_ok {left right : Nat} (ordered : right ≤ left) :
    sub left right = .ok (left - right) := by
  simp [sub, ordered]

theorem signed_eq_self {word : Nat} (small : word < signedLimit) : signed word = word :=
  if_pos small

end PagedMap.Word
