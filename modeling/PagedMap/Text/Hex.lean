/-!
# Hexadecimal text

Lowercase hexadecimal digits of bytes and of natural numbers.
-/

namespace PagedMap.Text

/-- The lowercase digit standing for the lowest four bits of a number. -/
def hexDigit (value : Nat) : Char :=
  Char.ofNat (if value % 16 < 10 then 48 + value % 16 else 87 + value % 16)

/-- The two hexadecimal digits of a byte, the higher one first. -/
def hexByte (byte : UInt8) : String :=
  String.ofList [hexDigit (byte.toNat / 16), hexDigit byte.toNat]

/-- The hexadecimal digits of a list of bytes, two for each. -/
def hexBytes (bytes : List UInt8) : String :=
  String.ofList (bytes.flatMap fun byte => [hexDigit (byte.toNat / 16), hexDigit byte.toNat])

/-- The hexadecimal digits of a number, with no leading zero except for zero itself. -/
def hexNat (value : Nat) : String :=
  String.ofList (Nat.toDigits 16 value)

end PagedMap.Text
