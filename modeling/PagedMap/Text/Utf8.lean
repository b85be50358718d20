/-!
# Reading UTF-8

Bytes are read as UTF-8. Where they are not, each longest run of bytes that begins a character but
does not complete it, or else a single byte, is read as one replacement character.
-/

namespace PagedMap.Text.Utf8

/-- Stands for bytes that are no text. -/
def replacement : Char := Char.ofNat 0xfffd

/-- Reads the continuation bytes of a character, the first of which must lie between `low` and
`high`, and gives back the character and the bytes after it. -/
def complete (wanted : Nat) (low high : UInt8) (value : Nat) (bytes : List UInt8) :
    Char × List UInt8 :=
  match wanted, bytes with
  | 0, bytes => (Char.ofNat value, bytes)
  | _ + 1, [] => (replacement, [])
  | wanted + 1, byte :: rest =>
    if low ≤ byte ∧ byte ≤ high then
      complete wanted 0x80 0xbf (value * 64 + byte.toNat % 64) rest
    else
      (replacement, byte :: rest)

/-- Reads the character that a byte begins, and gives it back with the bytes after it. The bounds
for the second byte leave out overlong forms, surrogates and what lies past the last character. -/
def character (lead : UInt8) (rest : List UInt8) : Char × List UInt8 :=
  if lead < 0x80 then (Char.ofNat lead.toNat, rest)
  else if lead < 0xc2 then (replacement, rest)
  else if lead < 0xe0 then complete 1 0x80 0xbf (lead.toNat % 32) rest
  else if lead = 0xe0 then complete 2 0xa0 0xbf 0 rest
  else if lead = 0xed then complete 2 0x80 0x9f 13 rest
  else if lead < 0xf0 then complete 2 0x80 0xbf (lead.toNat % 16) rest
  else if lead = 0xf0 then complete 3 0x90 0xbf 0 rest
  else if lead < 0xf4 then complete 3 0x80 0xbf (lead.toNat % 8) rest
  else if lead = 0xf4 then complete 3 0x80 0x8f 4 rest
  else (replacement, rest)

theorem length_complete_le (wanted : Nat) (low high : UInt8) (value : Nat) (bytes : List UInt8) :
    (complete wanted low high value bytes).2.length ≤ bytes.length := by
  fun_induction complete wanted low high value bytes with
  | case1 => simp
  | case2 => simp
  | case3 low high value wanted byte rest _ ih => simp only [List.length_cons]; omega
  | case4 => simp

theorem length_character_le (lead : UInt8) (rest : List UInt8) :
    (character lead rest).2.length ≤ rest.length := by
  unfold character
  repeat' split
  all_goals first
    | exact Nat.le_refl _
    | exact length_complete_le ..

/-- The characters of a text in UTF-8. -/
def decode : List UInt8 → List Char
  | [] => []
  | lead :: rest => (character lead rest).1 :: decode (character lead rest).2
termination_by bytes => bytes.length
decreasing_by
  have := length_character_le lead rest
  simp only [List.length_cons]
  omega

end PagedMap.Text.Utf8
