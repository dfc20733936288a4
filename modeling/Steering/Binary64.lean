import Steering.Text.Decimal

/-!
# `Steering.Binary64` — decimal fractions as they are stored

A number with a fraction or an exponent in a settings text is kept as a binary64 value, and a
message that names it shows the fewest decimal digits that read back as that value. Both directions
are exact arithmetic on whole numbers: a finite value is `mantissa * 2 ^ exponent`, and the texts
that read back as it fill the interval between the halfway points to its two neighbours, ends
included when the mantissa is even. Products and quotients are exact before they are rounded, too.
-/

namespace Steering

inductive Binary64 where
  | finite (negative : Bool) (mantissa : Nat) (exponent : Int)
  | infinite (negative : Bool)
  | nan
  deriving DecidableEq, Inhabited, Repr

namespace Binary64

/-- The number `n * base ^ e` as a quotient of whole numbers. -/
def scaled (n : Nat) (base : Nat) (e : Int) : Nat × Nat :=
  if 0 ≤ e then (n * Nat.pow base e.toNat, 1) else (n, Nat.pow base (-e).toNat)

/-- A quotient rounded to the nearest whole number, a tie to the even one. -/
def roundQuotient (num den : Nat) : Nat :=
  let q := num / den
  let r := num % den
  if 2 * r < den then q
  else if den < 2 * r then q + 1
  else if q % 2 = 0 then q else q + 1

/-- The quotient `num / den / 2 ^ e`, rounded. -/
def roundAt (num den : Nat) (e : Int) : Nat :=
  if 0 ≤ e then roundQuotient num (den * Nat.pow 2 e.toNat)
  else roundQuotient (num * Nat.pow 2 (-e).toNat) den

/-- The exponent at which a positive quotient has 53 binary digits, or the least exponent that there
is. -/
def exponentOf (num den : Nat) : Int :=
  let guess : Int := (num.log2 : Int) - (den.log2 : Int) - 53
  let tooLow := roundAt num den guess ≥ Nat.pow 2 53
  max (if tooLow then guess + 1 else guess) (-1074)

/-- The stored value nearest to a positive quotient. -/
def ofQuotient (negative : Bool) (num den : Nat) : Binary64 :=
  let e := exponentOf num den
  let m := roundAt num den e
  let (m, e) := if m = Nat.pow 2 53 then (Nat.pow 2 52, e + 1) else (m, e)
  if 971 < e then infinite negative else finite negative m e

/-- The stored value nearest to `digits * 10 ^ exponent`. -/
def ofDecimal (negative : Bool) (digits : Nat) (exponent : Int) : Binary64 :=
  let size : Int := (toString digits).length
  if digits = 0 ∨ exponent + size < -330 then finite negative 0 0
  else if 330 < exponent + size then infinite negative
  else
    let (num, den) := scaled digits 10 exponent
    ofQuotient negative num den

/-! ## The shortest text -/

/-- How numbers are written where the value alone leaves a choice. -/
structure Style where
  /-- Of which powers of ten the numbers are written without an exponent. -/
  isPlain : Int → Bool
  /-- Whether the greater of two texts that are equally near is taken, and not the even one. -/
  tiesUp : Bool

def quotientLE (x y : Nat × Nat) : Bool := x.1 * y.2 ≤ y.1 * x.2

/-- Whether a quotient reads back as `mantissa * 2 ^ exponent`. -/
def readsBack (mantissa : Nat) (exponent : Int) (x : Nat × Nat) : Bool :=
  let low :=
    if mantissa = Nat.pow 2 52 ∧ -1074 < exponent then scaled (4 * mantissa - 1) 2 (exponent - 2)
    else scaled (2 * mantissa - 1) 2 (exponent - 1)
  let high := scaled (2 * mantissa + 1) 2 (exponent - 1)
  if mantissa % 2 = 0 then quotientLE low x && quotientLE x high
  else !quotientLE x low && !quotientLE high x

/-- The multiple of `10 ^ k` that reads back, the nearer of the two around the value if both do. -/
def onGrid (tiesUp : Bool) (mantissa : Nat) (exponent k : Int) : Option Nat :=
  let (num, den) := scaled mantissa 2 exponent
  let (gnum, gden) := scaled 1 10 k
  let below := (num * gden) / (den * gnum)
  let rest := (num * gden) % (den * gnum)
  let fits n := readsBack mantissa exponent (n * gnum, gden)
  match fits below, fits (below + 1) with
  | true, true =>
    let isTie := 2 * rest = den * gnum
    if 2 * rest < den * gnum ∨ isTie ∧ ¬tiesUp ∧ below % 2 = 0 then some below else some (below + 1)
  | true, false => some below
  | false, true => some (below + 1)
  | false, false => none

/-- Tries ever finer grids, `fuel` of them. -/
def shortestFrom (tiesUp : Bool) (mantissa : Nat) (exponent : Int) : Nat → Int → Nat × Int
  | 0, k => (0, k)
  | fuel + 1, k =>
    match onGrid tiesUp mantissa exponent k with
    | some n => (n, k)
    | none => shortestFrom tiesUp mantissa exponent fuel (k - 1)

/-- The fewest digits `d` and the exponent `k` such that `d * 10 ^ k` reads back. -/
def shortest (tiesUp : Bool) (mantissa : Nat) (exponent : Int) : Nat × Int :=
  let (num, den) := scaled mantissa 2 exponent
  let size : Int := (toString (num / den)).length
  let start := if num / den = 0 then -((toString (den / num)).length : Int) + 1 else size
  shortestFrom tiesUp mantissa exponent 20 start

/-- The number `digits * 10 ^ exponent` without an exponent, with at least one place after the
point. -/
def positional (digits : Nat) (exponent : Int) : String :=
  if 0 ≤ exponent then toString (digits * Nat.pow 10 exponent.toNat) ++ ".0"
  else
    let places := (-exponent).toNat
    let fraction := Text.padded places (digits % Nat.pow 10 places)
    toString (digits / Nat.pow 10 places) ++ "." ++ String.ofList fraction

/-- The number `digits * 10 ^ exponent` with one digit before the point and a signed exponent; the
point is left out if no digit follows it. -/
def scientific (digits : Nat) (exponent : Int) : String :=
  match (toString digits).toList with
  | [] => ""
  | lead :: rest =>
    let power := exponent + rest.length
    let fraction := if rest.isEmpty then [] else '.' :: rest
    String.ofList (lead :: fraction) ++ (if power < 0 then "e-" else "e+")
      ++ toString power.natAbs

/-- The text of a stored number. The power of ten that decides its form is that of the leading
digit. -/
def text (style : Style) : Binary64 → String
  | nan => "NaN"
  | infinite negative => if negative then "-inf" else "inf"
  | finite negative mantissa exponent =>
    let body :=
      if mantissa = 0 then "0.0"
      else
        let (d, k) := shortest style.tiesUp mantissa exponent
        if style.isPlain (k + (toString d).length - 1) then positional d k else scientific d k
    if negative then "-" ++ body else body

/-! ## Arithmetic -/

/-- The stored value nearest to a whole number. -/
def ofNat (n : Nat) : Binary64 := if n = 0 then finite false 0 0 else ofQuotient false n 1

def mul : Binary64 → Binary64 → Binary64
  | finite a m e, finite b n f =>
    if m * n = 0 then finite (a != b) 0 0
    else
      let (num, den) := scaled (m * n) 2 (e + f)
      ofQuotient (a != b) num den
  | infinite a, infinite b => infinite (a != b)
  | infinite a, finite b n _ | finite b n _, infinite a => if n = 0 then nan else infinite (a != b)
  | nan, _ | _, nan => nan

def div : Binary64 → Binary64 → Binary64
  | finite a m e, finite b n f =>
    if n = 0 then if m = 0 then nan else infinite (a != b)
    else if m = 0 then finite (a != b) 0 0
    else
      let (num, den) := scaled m 2 (e - f)
      ofQuotient (a != b) num (den * n)
  | finite a _ _, infinite b => finite (a != b) 0 0
  | infinite a, finite b _ _ => infinite (a != b)
  | infinite _, infinite _ | nan, _ | _, nan => nan

def neg : Binary64 → Binary64
  | finite a m e => finite (!a) m e
  | infinite a => infinite (!a)
  | nan => nan

def isZero : Binary64 → Bool
  | finite _ m _ => m = 0
  | infinite _ | nan => false

end Binary64

end Steering
