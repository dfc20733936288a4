import Steering.Binary64
import Steering.Text.Quoted

/-!
# `Steering.Datum` — untyped data, and reading typed values out of it

Settings and instances arrive as data of one of two formats, TOML and JSON. Both are read into one
type, `Datum`, and every typed value is read out of a datum here, so that each refusal has one
wording whichever format the data came from. The formats differ in how a message writes a number
with a fraction, and in what may stand behind a name.

Two ranges matter for numbers. A whole number that a word of 64 bits holds (signed or not) is an
integer to every reader, and a reader that cannot take it says that its *value* is wrong. A whole
number beyond that is a wide integer and has the wrong *type* for all of them.
-/

namespace Steering

/-- The two formats that data comes in. -/
inductive Format where
  | toml
  | json
  deriving DecidableEq, Inhabited, Repr

/-- How a format writes the numbers that are stored as binary64. TOML never writes an exponent; JSON
does from the seventeenth digit before the point on, and from the fifth zero behind it. -/
def Format.numberStyle : Format → Binary64.Style
  | toml => { isPlain := fun _ => true, tiesUp := true }
  | json => { isPlain := fun power => -5 ≤ power && power < 16, tiesUp := false }

/-- Untyped data. -/
inductive Datum where
  | null
  | bool (b : Bool)
  | int (n : Int)
  | float (x : Binary64)
  /-- A number that no stored type holds. -/
  | unstorable
  | text (s : String)
  /-- A date, a time, or both. -/
  | moment
  | list (elements : List Datum)
  | table (entries : List (String × Datum))
  deriving Inhabited

/-- Why a datum has no value of the wanted type. -/
inductive Mismatch where
  | invalidType (found expected : String)
  | invalidValue (found expected : String)
  | unknownVariant (found : String) (known : List String)
  | missingField (name : String)
  | invalidLength (length : Nat) (expected : String)
  /-- A shape that the format itself has no reading for. -/
  | unreadable
  deriving DecidableEq, Inhabited, Repr

namespace Mismatch

/-- Names between back quotes, separated by commas. -/
def listed (names : List String) : String :=
  String.intercalate ", " (names.map fun n => "\x60" ++ n ++ "\x60")

def message : Mismatch → String
  | invalidType found expected => s!"invalid type: {found}, expected {expected}"
  | invalidValue found expected => s!"invalid value: {found}, expected {expected}"
  | unknownVariant found known =>
    "unknown variant \x60" ++ found ++ "\x60, expected one of " ++ listed known
  | missingField name => "missing field \x60" ++ name ++ "\x60"
  | invalidLength length expected => s!"invalid length {length}, expected {expected}"
  | unreadable => "unreadable value"

end Mismatch

namespace Datum

/-- Whether a signed or an unsigned word of 64 bits holds a number. -/
def isNarrow (n : Int) : Bool := -(Nat.pow 2 63 : Int) ≤ n && n < Nat.pow 2 64

/-- Whether a signed or an unsigned word of 128 bits holds a number. -/
def isWide (n : Int) : Bool := -(Nat.pow 2 127 : Int) ≤ n && n < Nat.pow 2 128

/-- How a whole number is named in a mismatch. -/
def describeInt (n : Int) : String :=
  let plain := "integer \x60" ++ toString n ++ "\x60"
  if isNarrow n then plain else if n < Nat.pow 2 127 then plain ++ " as i128" else plain ++ " as u128"

/-- How a datum is named in a mismatch. -/
def describe (format : Format) : Datum → String
  | null => "null"
  | bool b => "boolean \x60" ++ toString b ++ "\x60"
  | int n => describeInt n
  | float x => "floating point \x60" ++ x.text format.numberStyle ++ "\x60"
  | unstorable => "number"
  | text s => "string " ++ Text.quoted s
  | moment | table _ => "map"
  | list _ => "sequence"

/-- The refusal of a datum where a value of another type is wanted. -/
def refuse (format : Format) (d : Datum) (expected : String) : Mismatch :=
  match d with
  | unstorable => .unreadable
  | d => .invalidType (d.describe format) expected

mutual

/-- Whether every number inside a datum has a stored type. -/
def isStorable : Datum → Bool
  | unstorable => false
  | list elements => allStorable elements
  | table entries => entriesStorable entries
  | _ => true

/-- Whether `isStorable` holds of every element. -/
def allStorable : List Datum → Bool
  | [] => true
  | d :: rest => d.isStorable && allStorable rest

/-- Whether `isStorable` holds of every entry's value. -/
def entriesStorable : List (String × Datum) → Bool
  | [] => true
  | (_, d) :: rest => d.isStorable && entriesStorable rest

end

/-- A datum that is looked over without being read. -/
def skip (d : Datum) : Except Mismatch Unit :=
  if d.isStorable then .ok () else .error .unreadable

/-! ## Typed values -/

def readText (format : Format) : Datum → Except Mismatch String
  | text s => .ok s
  | d => .error (d.refuse format "a string")

def readBool (format : Format) : Datum → Except Mismatch Bool
  | bool b => .ok b
  | d => .error (d.refuse format "a boolean")

/-- A whole number between two bounds that a word of 64 bits holds. -/
def readWithin (format : Format) (low high : Int) (type : String) : Datum → Except Mismatch Int
  | int n =>
    if low ≤ n ∧ n ≤ high then .ok n
    else if isNarrow n then .error (.invalidValue (describeInt n) type)
    else .error (.invalidType (describeInt n) type)
  | d => .error (d.refuse format type)

/-- An unsigned word of 64 bits; `type` is its name in messages. -/
def readUnsigned (format : Format) (type : String) (d : Datum) : Except Mismatch Nat :=
  (d.readWithin format 0 (Nat.pow 2 64 - 1) type).map Int.toNat

def readSigned (format : Format) (d : Datum) : Except Mismatch Int :=
  d.readWithin format (-(Nat.pow 2 63 : Int)) (Nat.pow 2 63 - 1) "i64"

def readText? (format : Format) : Datum → Except Mismatch (Option String)
  | null => .ok none
  | d => (d.readText format).map some

/-- Looks a name up among the names of the values of a finite type. -/
def named {α : Type} (name : α → String) (all : List α) (s : String) : Except Mismatch α :=
  match all.find? fun a => name a = s with
  | some a => .ok a
  | none => .error (.unknownVariant s (all.map name))

/-- What may stand behind the name of a value that has no content. -/
def readUnit (format : Format) (d : Datum) : Except Mismatch Unit :=
  match format, d with
  | .json, null => .ok ()
  | .json, d => .error (d.refuse .json "unit")
  | .toml, list [] | .toml, table [] => .ok ()
  | .toml, _ => .error .unreadable

/-- A value of a finite type: its name, or a table with its name as the only key. -/
def readName {α : Type} (format : Format) (name : α → String) (all : List α) (d : Datum) :
    Except Mismatch α :=
  match d with
  | text s => named name all s
  | table [(key, content)] => do
    let a ← named name all key
    content.readUnit format
    return a
  | d =>
    match format, d with
    | .toml, _ => .error .unreadable
    | .json, table _ => .error (.invalidValue "map" "map with a single key")
    | .json, d => .error (d.refuse .json "string or map")

/-- The entries of a table in the order in which they are looked at: by key. -/
def inKeyOrder (entries : List (String × Datum)) : List (String × Datum) :=
  entries.mergeSort fun a b => a.1 ≤ b.1

end Datum

end Steering
