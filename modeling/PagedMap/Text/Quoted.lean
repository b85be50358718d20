import PagedMap.Text.Hex
import PagedMap.Text.Shapeless

/-!
# Quoted text

A text in double quotes, with escapes for quotes, backslashes and all characters that would not
show as themselves.
-/

namespace PagedMap.Text

def escape (char : Char) : String :=
  if char = '"' then "\\\""
  else if char = '\\' then "\\\\"
  else if char = '\t' then "\\t"
  else if char = '\r' then "\\r"
  else if char = '\n' then "\\n"
  else if char.toNat = 0 then "\\0"
  else if char.toNat < 0x20 ∨ isShapeless char then
    "\\u\x7b" ++ hexNat char.toNat ++ "\x7d"
  else
    char.toString

def quote (text : List Char) : String :=
  "\"" ++ String.join (text.map escape) ++ "\""

end PagedMap.Text
