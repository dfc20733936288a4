import Steering.Datum

/-!
# `Steering.JsonNumber` — how the numbers of a JSON text are stored

A number without fraction and exponent that a word of 64 bits holds is a whole number. Every other
one is stored as a binary64 value, and not always as the nearest: the leading digits are taken into
a word as long as they fit, the rest only count, and the word is then rounded and scaled by a
rounded power of ten. So a number goes through up to two roundings, and through more if its exponent
is below the least power in store.

A number whose stored value would be infinite is no number. The zero with a minus in front is not a
whole number, since no word holds it.
-/

namespace Steering

/-- A number as it is written in a JSON text: digits, with at least one before the point. -/
structure JsonNumber where
  negative : Bool
  whole : List Char
  fraction : List Char
  exponent? : Option Int
  deriving Inhabited

namespace JsonNumber

/-- Takes digits into a word as long as they fit: the word, and the digits that are left. -/
def fill : Nat → List Char → Nat × List Char
  | n, [] => (n, [])
  | n, c :: rest =>
    let m := n * 10 + (Text.digit? c).getD 0
    if m < Nat.pow 2 64 then fill m rest else (n, c :: rest)

/-- The leading digits as a word, and the power of ten that it is to be scaled by. -/
def significand (x : JsonNumber) : Nat × Int :=
  let (n, skipped) := fill 0 x.whole
  let (m, ignored) := fill n x.fraction
  let places := x.fraction.length - ignored.length
  (m, (skipped.length : Int) - places + x.exponent?.getD 0)

def maxPower : Nat := 308

def powerOfTen (k : Nat) : Binary64 := .ofDecimal false 1 k

/-- Scales a value by a power of ten; `fuel` bounds the divisions by the greatest power in store. A
word is zero after three of them. -/
def scale : Nat → Binary64 → Int → Option Binary64
  | 0, x, _ => some x
  | fuel + 1, x, k =>
    if k.natAbs ≤ maxPower then
      if k < 0 then some (x.div (powerOfTen k.natAbs))
      else
        match x.mul (powerOfTen k.natAbs) with
        | .infinite _ => none
        | y => some y
    else if x.isZero then some x
    else if 0 < k then none
    else scale fuel (x.div (powerOfTen maxPower)) (k + maxPower)

/-- The binary64 value of a number. -/
def float? (x : JsonNumber) : Option Binary64 :=
  let (n, k) := x.significand
  (scale 4 (.ofNat n) k).map fun y => if x.negative then y.neg else y

/-- The whole number that a number is, if a word holds it. -/
def int? (x : JsonNumber) : Option Int :=
  if x.fraction.isEmpty ∧ x.exponent?.isNone then
    (Text.readNat? x.whole).bind fun n =>
      let i : Int := if x.negative then -n else n
      if Datum.isNarrow i ∧ ¬(x.negative ∧ n = 0) then some i else none
  else none

def datum (x : JsonNumber) : Datum :=
  match x.int? with
  | some i => .int i
  | none => x.float?.elim .unstorable .float

end JsonNumber

end Steering
