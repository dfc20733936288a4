/-!
# `Steering.Text.Blank` — white space around a text

The property `White_Space` holds of 25 characters. Trimming removes them from both ends of a text
and touches nothing between the first and the last other character.
-/

namespace Steering.Text

/-- Whether a character has the property `White_Space`. -/
def isBlank (c : Char) : Bool :=
  let n := c.toNat
  (0x9 ≤ n && n ≤ 0xd) || n = 0x20 || n = 0x85 || n = 0xa0 || n = 0x1680
    || (0x2000 ≤ n && n ≤ 0x200a) || n = 0x2028 || n = 0x2029 || n = 0x202f || n = 0x205f
    || n = 0x3000

/-- A list without the elements at its two ends that satisfy a test. -/
def trimWhile {α : Type} (p : α → Bool) (xs : List α) : List α :=
  ((xs.dropWhile p).reverse.dropWhile p).reverse

/-- A text without the white space around it. -/
def trim (text : List Char) : List Char := trimWhile isBlank text

end Steering.Text
