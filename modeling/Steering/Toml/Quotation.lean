import Steering.Toml.Scalar

/-!
# `Steering.Toml.Quotation` — the four kinds of quoted text

A quotation is basic (with escapes) or literal, on one line or between three marks over several. All
four readers take the characters behind the opening mark and return the text and what follows the
closing mark. The readers that can meet an escape of several characters go down an allowance that
starts at the length of the input.
-/

namespace Steering.Toml

/-- Whether a character may stand unescaped in a text or a comment. -/
def isAllowed (c : Char) : Bool := c = '\t' || (0x20 ≤ c.toNat && c.toNat ≠ 0x7f)

/-- The character that a number of hexadecimal digits denotes, and what follows them. -/
def takeScalarValue? (width : Nat) (cs : List Char) : Option (Char × List Char) :=
  let digits := cs.take width
  if digits.length = width ∧ digits.all isHexDigit then
    let n := valueIn 16 digits
    if n.isValidChar then some (Char.ofNat n, cs.drop width) else none
  else none

/-- The character that an escape denotes, after the backslash. -/
def takeEscape? : List Char → Option (Char × List Char)
  | 'b' :: rest => some ('\x08', rest)
  | 't' :: rest => some ('\t', rest)
  | 'n' :: rest => some ('\n', rest)
  | 'f' :: rest => some ('\x0c', rest)
  | 'r' :: rest => some ('\r', rest)
  | 'e' :: rest => some ('\x1b', rest)
  | '"' :: rest => some ('"', rest)
  | '\\' :: rest => some ('\\', rest)
  | 'x' :: rest => takeScalarValue? 2 rest
  | 'u' :: rest => takeScalarValue? 4 rest
  | 'U' :: rest => takeScalarValue? 8 rest
  | _ => none

def takeBasic? : Nat → List Char → Option (List Char × List Char)
  | 0, _ => none
  | _ + 1, [] => none
  | _ + 1, '"' :: rest => some ([], rest)
  | fuel + 1, '\\' :: rest => do
    let (c, rest) ← takeEscape? rest
    let (text, rest) ← takeBasic? fuel rest
    return (c :: text, rest)
  | fuel + 1, c :: rest =>
    if isAllowed c then (takeBasic? fuel rest).map fun p => (c :: p.1, p.2) else none

def takeLiteral? : List Char → Option (List Char × List Char)
  | [] => none
  | '\'' :: rest => some ([], rest)
  | c :: rest => if isAllowed c then (takeLiteral? rest).map fun p => (c :: p.1, p.2) else none

/-- Whether a text starts with a line break. -/
def startsLine : List Char → Bool
  | '\n' :: _ | '\r' :: '\n' :: _ => true
  | _ => false

/-- Drops the line break right behind an opening mark. -/
def dropFirstBreak : List Char → List Char
  | '\n' :: rest | '\r' :: '\n' :: rest => rest
  | cs => cs

/-- Whether only spaces and tabs stand before the next line break. -/
def endsLine (cs : List Char) : Bool := startsLine (cs.dropWhile fun c => c = ' ' || c = '\t')

/-- Drops spaces, tabs and line breaks. -/
def dropBlankLines : List Char → List Char
  | ' ' :: rest | '\t' :: rest | '\n' :: rest | '\r' :: '\n' :: rest => dropBlankLines rest
  | cs => cs

/-- Splits at the end of a text between three marks: the last three of up to five marks in a row. -/
def closing? (mark : Char) (cs : List Char) : Option (List Char × List Char) :=
  let n := (cs.takeWhile (· = mark)).length
  if n < 3 then none else if n ≤ 5 then some (List.replicate (n - 3) mark, cs.drop n) else none

def takeLongBasic? : Nat → List Char → Option (List Char × List Char)
  | 0, _ => none
  | _ + 1, [] => none
  | fuel + 1, c :: rest =>
    if c = '"' ∧ (rest.take 2) = ['"', '"'] then closing? '"' (c :: rest)
    else if c = '\\' then
      if endsLine rest then takeLongBasic? fuel (dropBlankLines rest)
      else
        match takeEscape? rest with
        | none => none
        | some (d, rest) => (takeLongBasic? fuel rest).map fun p => (d :: p.1, p.2)
    else if isAllowed c || startsLine (c :: rest) || c = '\n' then
      (takeLongBasic? fuel rest).map fun p => (c :: p.1, p.2)
    else none

def takeLongLiteral? : List Char → Option (List Char × List Char)
  | [] => none
  | c :: rest =>
    if c = '\'' ∧ (rest.take 2) = ['\'', '\''] then closing? '\'' (c :: rest)
    else if isAllowed c || startsLine (c :: rest) then
      (takeLongLiteral? rest).map fun p => (c :: p.1, p.2)
    else none

/-- Reads a quoted text of any kind, if one starts here. -/
def takeQuotation? (cs : List Char) : Option (List Char × List Char) :=
  match cs with
  | '"' :: '"' :: '"' :: rest => takeLongBasic? (rest.length + 1) (dropFirstBreak rest)
  | '\'' :: '\'' :: '\'' :: rest => takeLongLiteral? (dropFirstBreak rest)
  | '"' :: rest => takeBasic? (rest.length + 1) rest
  | '\'' :: rest => takeLiteral? rest
  | _ => none

end Steering.Toml
