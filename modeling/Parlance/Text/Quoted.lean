import Parlance.Text.Escaped

/-! Quoted text, as it stands in descriptions of sentences and mutations: between double quotes, with a
backslash before the quote and itself, short escapes for the common controls, and the code point in braces
for every other character that would not be seen. -/

namespace Parlance.Text

/-- The digits of a number in base sixteen, in lower case. -/
def hexDigits (n : Nat) : List Char := Nat.toDigits 16 n

/-- One character inside a quoted text. -/
def quotedChar (c : Char) : List Char :=
  if c = '"' then ['\\', '"']
  else if c = '\\' then ['\\', '\\']
  else if c = '\n' then ['\\', 'n']
  else if c = '\r' then ['\\', 'r']
  else if c = '\t' then ['\\', 't']
  else if c.toNat = 0 then ['\\', '0']
  else if c.toNat < 0x20 ∨ 0x7F ≤ c.toNat ∧ isEscapedBeyondAscii c then
    ['\\', 'u', '\x7b'] ++ hexDigits c.toNat ++ ['\x7d']
  else [c]

/-- A text between quotes, with escapes. -/
def quoted (s : String) : String := String.ofList (['"'] ++ s.toList.flatMap quotedChar ++ ['"'])

end Parlance.Text
