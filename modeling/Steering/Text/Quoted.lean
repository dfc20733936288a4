import Steering.Text.Printable

/-!
# `Steering.Text.Quoted` — texts shown inside a message

A message that names a text of unknown content shows it between quotation marks, with every
character that would not be seen, and the two that would be misread, written as an escape. The
apostrophe stands for itself.
-/

namespace Steering.Text

/-- The hexadecimal digit of a number below 16, in lower case. -/
def hexDigit (n : Nat) : Char := Char.ofNat (if n < 10 then 0x30 + n else 0x57 + n)

/-- The hexadecimal digits of a number, the least significant first, at most `fuel` of them. -/
def hexDigitsRev : Nat → Nat → List Char
  | 0, _ => []
  | fuel + 1, n => hexDigit (n % 16) :: if n < 16 then [] else hexDigitsRev fuel (n / 16)

/-- A number below `2 ^ 64` in hexadecimal, in lower case and without leading zeros. -/
def hex (n : Nat) : String := String.ofList (hexDigitsRev 16 n).reverse

/-- How one character is shown inside quotation marks. -/
def escaped (c : Char) : List Char :=
  if c = '\x00' then ['\\', '0']
  else if c = '\t' then ['\\', 't']
  else if c = '\r' then ['\\', 'r']
  else if c = '\n' then ['\\', 'n']
  else if c = '\\' then ['\\', '\\']
  else if c = '"' then ['\\', '"']
  else if isPrintable c then [c]
  else "\\u\x7b".toList ++ (hex c.toNat).toList ++ ['\x7d']

/-- A text between quotation marks. -/
def quoted (text : String) : String :=
  "\"" ++ String.ofList (text.toList.flatMap escaped) ++ "\""

end Steering.Text
