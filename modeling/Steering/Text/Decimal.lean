/-!
# `Steering.Text.Decimal` — whole numbers in decimal text

Reading accepts ASCII digits only: at least one, any number of leading zeros, no separators and no
white space. A sign is a single character in front. Writing is `toString`.
-/

namespace Steering.Text

/-- The value of one ASCII digit. -/
def digit? (c : Char) : Option Nat := if c.isDigit then some (c.toNat - '0'.toNat) else none

/-- Reads digits after a number that has already been read. -/
def readDigitsFrom (start : Nat) : List Char → Option Nat
  | [] => some start
  | c :: rest => (digit? c).bind fun d => readDigitsFrom (start * 10 + d) rest

def readNat? : List Char → Option Nat
  | [] => none
  | cs => readDigitsFrom 0 cs

/-- Reads one or more digits after an optional plus sign. -/
def readUnsigned? : List Char → Option Nat
  | '+' :: rest => readNat? rest
  | cs => readNat? cs

/-- Reads one or more digits after an optional sign. -/
def readSigned? : List Char → Option Int
  | '+' :: rest => (readNat? rest).map Int.ofNat
  | '-' :: rest => (readNat? rest).map fun n => -(n : Int)
  | cs => (readNat? cs).map Int.ofNat

/-- A number in `width` decimal digits, with leading zeros. -/
def padded (width n : Nat) : List Char :=
  let digits := (toString n).toList
  List.replicate (width - digits.length) '0' ++ digits

end Steering.Text
