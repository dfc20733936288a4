import Steering.Datum
import Steering.Text.Split

/-!
# `Steering.Toml.Scalar` — numbers, truth values and times

A scalar that is not quoted is read as a whole, however many words and dots it was written with. Its
first characters decide nothing on their own — `1`, `1.5`, `1979-05-27` and `07:32` share them — so
`readScalar?` tries the kinds one after the other; no text belongs to two of them.

Digits may be grouped by single underscores, with a digit on either side of each. A whole number is
recognised by its *outline* before its value is worked out, and the outline is generous: of a run
with underscores it looks only at the characters beside them, where any hexadecimal digit will do,
and a base may stand without digits. A run with the outline of a number and without a value is
accepted as a number that no type stores, so it fails only where somebody looks at it.
-/

namespace Steering.Toml

/-- Removes the underscores of a group of digits, if each stands between two digits. -/
def ungroup? (isDigit : Char → Bool) : List Char → Option (List Char)
  | [] => none
  | [c] => if isDigit c then some [c] else none
  | c :: '_' :: rest => if isDigit c then (ungroup? isDigit rest).map (c :: ·) else none
  | c :: d :: rest => if isDigit c then (ungroup? isDigit (d :: rest)).map (c :: ·) else none

/-- The value of a digit in any base up to 16. -/
def digitValue (c : Char) : Nat :=
  if c.isDigit then c.toNat - 0x30 else c.toLower.toNat - 0x57

/-- The number that digits denote in a base. -/
def valueIn (base : Nat) (digits : List Char) : Nat :=
  digits.foldl (fun n c => n * base + digitValue c) 0

def isHexDigit (c : Char) : Bool :=
  c.isDigit || ('a' ≤ c && c ≤ 'f') || ('A' ≤ c && c ≤ 'F')

def isOctalDigit (c : Char) : Bool := '0' ≤ c && c ≤ '7'

def isBinaryDigit (c : Char) : Bool := c = '0' || c = '1'

/-- Splits off a sign; the flag says whether it is a minus. -/
def takeSign : List Char → Bool × List Char
  | '-' :: rest => (true, rest)
  | '+' :: rest => (false, rest)
  | cs => (false, cs)

/-- A whole number as a datum. -/
def intDatum (n : Int) : Datum := if Datum.isWide n then .int n else .unstorable

/-- Decimal digits without a superfluous zero in front. -/
def wholeDigits? (cs : List Char) : Option (List Char) :=
  match ungroup? Char.isDigit cs with
  | some ('0' :: _ :: _) => none
  | digits? => digits?

/-- A whole number in a base, after its mark. -/
def readBased? (base : Nat) (isDigit : Char → Bool) (cs : List Char) : Option Datum :=
  if cs.isEmpty then some .unstorable
  else (ungroup? isDigit cs).map fun ds => intDatum (valueIn base ds)

/-- Whether the runs between underscores are such that each underscore joins two digits of some
base. -/
def joinsDigits : List (List Char) → Bool
  | run :: next :: rest =>
    run.getLast?.any isHexDigit && next.head?.any isHexDigit && joinsDigits (next :: rest)
  | _ => true

/-- Whether a run has the outline of a decimal whole number: a lone zero, or digits without a zero
in front and, behind an underscore, anything that makes no other kind of number. -/
def isWholeOutline (cs : List Char) : Bool :=
  let body := (takeSign cs).2
  let rest := body.dropWhile Char.isDigit
  body = ['0']
    || (body.head?.any (· ≠ '0') && (rest.isEmpty || rest.head?.any (· = '_'))
      && rest.all (!" .eE".toList.contains ·) && joinsDigits (Text.pieces '_' cs))

/-- A decimal whole number, if it has the outline of one. -/
def readDecimal? (cs : List Char) : Option Datum :=
  if isWholeOutline cs then
    let (negative, body) := takeSign cs
    let digits := body.filter (· ≠ '_')
    let n : Int := valueIn 10 digits
    some (if digits.all Char.isDigit then intDatum (if negative then -n else n) else .unstorable)
  else none

/-- A whole number: decimal with an optional sign, or one of three bases without a sign. -/
def readInt? (cs : List Char) : Option Datum :=
  match cs with
  | '0' :: 'x' :: rest => readBased? 16 isHexDigit rest
  | '0' :: 'o' :: rest => readBased? 8 isOctalDigit rest
  | '0' :: 'b' :: rest => readBased? 2 isBinaryDigit rest
  | cs => readDecimal? cs

def isExponentMark (c : Char) : Bool := c = 'e' || c = 'E'

/-- An exponent, after its mark. -/
def readExponent? (cs : List Char) : Option Int :=
  let (negative, body) := takeSign cs
  (ungroup? Char.isDigit body).map fun ds =>
    let n : Int := valueIn 10 ds
    if negative then -n else n

/-- A number with a fraction or an exponent, or one of the special values. -/
def readFloat? (cs : List Char) : Option Datum := do
  let (negative, body) := takeSign cs
  if body = "inf".toList then return .float (.infinite negative)
  if body = "nan".toList then return .float .nan
  let mantissa := body.takeWhile (!isExponentMark ·)
  let exponent ←
    match body.dropWhile (!isExponentMark ·) with
    | [] => if mantissa.contains '.' then some 0 else none
    | _ :: rest => readExponent? rest
  let whole ← wholeDigits? (mantissa.takeWhile (· ≠ '.'))
  let fraction ←
    match mantissa.dropWhile (· ≠ '.') with
    | [] => some []
    | _ :: rest => ungroup? Char.isDigit rest
  let digits := valueIn 10 (whole ++ fraction)
  match Binary64.ofDecimal negative digits (exponent - fraction.length) with
  | .infinite _ => return .unstorable
  | x => return .float x

/-! ## Dates and times -/

/-- A number of exactly `width` digits, and what follows. -/
def takeNumber? (width : Nat) (cs : List Char) : Option (Nat × List Char) :=
  let digits := cs.take width
  if digits.length = width ∧ digits.all Char.isDigit then some (valueIn 10 digits, cs.drop width)
  else none

def isLeapYear (year : Nat) : Bool := year % 4 = 0 && (year % 100 ≠ 0 || year % 400 = 0)

def daysIn (year month : Nat) : Nat :=
  if month = 2 then if isLeapYear year then 29 else 28
  else if month = 4 ∨ month = 6 ∨ month = 9 ∨ month = 11 then 30
  else 31

/-- What follows a date. -/
def dropDate? (cs : List Char) : Option (List Char) := do
  let (year, cs) ← takeNumber? 4 cs
  let '-' :: cs := cs | none
  let (month, cs) ← takeNumber? 2 cs
  let '-' :: cs := cs | none
  let (day, cs) ← takeNumber? 2 cs
  if 1 ≤ month ∧ month ≤ 12 ∧ 1 ≤ day ∧ day ≤ daysIn year month then some cs else none

/-- What follows the fraction of a second, if there is one. -/
def dropFraction? : List Char → Option (List Char)
  | '.' :: rest =>
    if (rest.takeWhile Char.isDigit).isEmpty then none else some (rest.dropWhile Char.isDigit)
  | cs => some cs

/-- What follows a time; the seconds may be left out. -/
def dropTime? (cs : List Char) : Option (List Char) := do
  let (hour, cs) ← takeNumber? 2 cs
  let ':' :: cs := cs | none
  let (minute, cs) ← takeNumber? 2 cs
  if 23 < hour ∨ 59 < minute then none
  match cs with
  | ':' :: cs =>
    let (second, cs) ← takeNumber? 2 cs
    if 60 < second then none else dropFraction? cs
  | cs => some cs

/-- What follows the distance from universal time, if there is one. -/
def dropOffset? (cs : List Char) : Option (List Char) :=
  match cs with
  | 'Z' :: rest | 'z' :: rest => some rest
  | '+' :: rest | '-' :: rest => do
    let (hour, rest) ← takeNumber? 2 rest
    let ':' :: rest := rest | none
    let (minute, rest) ← takeNumber? 2 rest
    if hour ≤ 23 ∧ minute ≤ 59 then some rest else none
  | cs => some cs

/-- Whether a text is a date, a time, or a date and a time. -/
def isMoment (cs : List Char) : Bool :=
  match dropDate? cs with
  | some [] => true
  | some (c :: rest) =>
    (c = 'T' || c = 't' || c = ' ') && ((dropTime? rest).bind dropOffset?) = some []
  | none => dropTime? cs = some []

/-- Reads a scalar that is not quoted. -/
def readScalar? (cs : List Char) : Option Datum :=
  if cs = "true".toList then some (.bool true)
  else if cs = "false".toList then some (.bool false)
  else
    match readInt? cs with
    | some d => some d
    | none =>
      match readFloat? cs with
      | some d => some d
      | none => if isMoment cs then some .moment else none

end Steering.Toml
