import Steering.Text.Blank
import Steering.Text.Decimal

/-!
# `Steering.Uri` — the grammar of endpoint texts

An endpoint text is a URI. Only three parts of it matter here: the scheme, the authority (from which
the host and the port are read) and the query. The grammar is stated on characters; a character
outside ASCII may stand in a path or a query and nowhere else, so lengths are the only place where
bytes are counted.

The grammar is deliberately the lenient one that HTTP stacks accept: the one by which the package
`http` reads a `Uri`, with its limits on the lengths and its reasons to refuse. In particular the authority is
scanned by a machine with four flags (`Scan`), which counts colons and watches brackets and percent
signs without ever parsing the host itself, and a port text that is not a 16-bit number does not
make a URI invalid: it just is no port.
-/

namespace Steering

/-- The parts of a URI that matter here. -/
structure Uri where
  scheme? : Option (List Char) := none
  authority? : Option (List Char) := none
  query? : Option (List Char) := none
  deriving DecidableEq, Inhabited, Repr

namespace Uri

inductive Refusal where
  | tooLong
  | empty
  | schemeTooLong
  | badCharacter
  | badAuthority
  | badFormat
  deriving DecidableEq, Inhabited, Repr

def Refusal.reason : Refusal → String
  | tooLong => "uri too long"
  | empty => "empty string"
  | schemeTooLong => "scheme too long"
  | badCharacter => "invalid uri character"
  | badAuthority => "invalid authority"
  | badFormat => "invalid format"

/-- The number of bytes of a list of characters in UTF-8. -/
def byteLength : List Char → Nat
  | [] => 0
  | c :: rest => c.utf8Size + byteLength rest

/-! ## The scheme -/

/-- The longest scheme that `http` takes, in bytes. -/
def maxSchemeLength : Nat := 64

/-- The longest text that `http` takes, in bytes. -/
def maxLength : Nat := 65534

def isSchemeChar (c : Char) : Bool := c.isAlphanum || c = '+' || c = '-' || c = '.' || c = '~'

/-- Removes a leading word, whatever the case of its letters. -/
def dropWord? : List Char → List Char → Option (List Char)
  | [], cs => some cs
  | _ :: _, [] => none
  | w :: ws, c :: cs => if c.toLower = w then dropWord? ws cs else none

/-- Splits at the first colon, if only scheme characters stand before it and two slashes behind. -/
def splitScheme? : List Char → Option (List Char × List Char)
  | [] => none
  | ':' :: '/' :: '/' :: rest => some ([], rest)
  | c :: rest =>
    if isSchemeChar c then (splitScheme? rest).map fun p => (c :: p.1, p.2) else none

/-- The scheme in front of a text, if there is one, and what follows it. The two common schemes are
recognised in any case and named in lower case; any other scheme keeps its case and may be empty. -/
def takeScheme (cs : List Char) : Except Refusal (Option (List Char) × List Char) :=
  match dropWord? "http://".toList cs, dropWord? "https://".toList cs with
  | some rest, _ => .ok (some "http".toList, rest)
  | none, some rest => .ok (some "https".toList, rest)
  | none, none =>
    if byteLength cs ≤ 3 then .ok (none, cs)
    else
      match splitScheme? cs with
      | none => .ok (none, cs)
      | some (scheme, rest) =>
        if maxSchemeLength < scheme.length then .error .schemeTooLong else .ok (some scheme, rest)

/-! ## The authority -/

def endsAuthority (c : Char) : Bool := c = '/' || c = '?' || c = '#'

/-- Whether a character may stand anywhere in an authority. -/
def isPlainChar (c : Char) : Bool := c.isAlphanum || "!$&'()*+,-.;=_~".toList.contains c

/-- What has been seen of an authority. -/
structure Scan where
  /-- Colons since the last `@` or `]`. -/
  colons : Nat := 0
  opened : Bool := false
  closed : Bool := false
  /-- A percent sign since the last `@` or `]`. -/
  percent : Bool := false
  /-- Whether the last character was `@`. -/
  atEnd : Bool := false
  deriving DecidableEq, Inhabited, Repr

/-- The most colons between two resets; a ninth one ends the scan. -/
def maxColons : Nat := 8

namespace Scan

/-- Takes one more character in. -/
def step (s : Scan) (c : Char) : Except Refusal Scan :=
  if c = ':' then
    if maxColons ≤ s.colons then .error .badAuthority
    else .ok { s with colons := s.colons + 1, atEnd := false }
  else if c = '[' then
    if s.percent || s.opened then .error .badAuthority
    else .ok { s with opened := true, atEnd := false }
  else if c = ']' then
    if !s.opened || s.closed then .error .badAuthority
    else .ok { s with closed := true, colons := 0, percent := false, atEnd := false }
  else if c = '@' then .ok { s with colons := 0, percent := false, atEnd := true }
  else if c = '%' then .ok { s with percent := true, atEnd := false }
  else if isPlainChar c then .ok { s with atEnd := false }
  else .error .badCharacter

/-- Whether an authority may end here. -/
def accepts (s : Scan) : Bool := s.opened = s.closed && s.colons ≤ 1 && !s.atEnd && !s.percent

def run (s : Scan) : List Char → Except Refusal Unit
  | [] => if s.accepts then .ok () else .error .badAuthority
  | c :: rest => (s.step c).bind fun t => t.run rest

end Scan

/-- Cuts the authority off the front of a text that is not empty. -/
def takeAuthority (cs : List Char) : Except Refusal (List Char × List Char) :=
  if cs.isEmpty then .error .empty
  else
    let authority := cs.takeWhile (!endsAuthority ·)
    (Scan.run {} authority).map fun _ => (authority, cs.dropWhile (!endsAuthority ·))

/-! ## The path and the query -/

/-- What `http` lets stand in a path. Of the characters that are no printable ASCII those from U+0080 on may
stand there, and no control character may, U+007F included. -/
def isPathChar (c : Char) : Bool :=
  let n := c.toNat
  c = '!' || (0x24 ≤ n && n ≤ 0x3b) || c = '=' || (0x40 ≤ n && n ≤ 0x5f) || (0x61 ≤ n && n ≤ 0x7a)
    || c = '|' || c = '~' || c = '"' || c = '\x7b' || c = '\x7d' || 0x80 ≤ n

/-- What `http` lets stand in a query; U+007F may not stand there either. -/
def isQueryChar (c : Char) : Bool :=
  let n := c.toNat
  c = '!' || (0x24 ≤ n && n ≤ 0x3b) || c = '=' || (0x3f ≤ n && n ≤ 0x7e) || 0x80 ≤ n

/-- Reads a query up to the fragment, which is not looked at. -/
def takeQuery (cs : List Char) : Except Refusal (List Char) :=
  let query := cs.takeWhile (· ≠ '#')
  if query.all isQueryChar then .ok query else .error .badCharacter

/-- Reads a path and the query behind it, if there is one. -/
def takePath (cs : List Char) : Except Refusal (Option (List Char)) :=
  let isPath (c : Char) : Bool := c ≠ '?' && c ≠ '#'
  if (cs.takeWhile isPath).all isPathChar then
    match cs.dropWhile isPath with
    | '?' :: rest => (takeQuery rest).map some
    | _ => .ok none
  else .error .badCharacter

/-! ## The whole -/

/-- Reads a URI of more than one byte that does not start with a slash. -/
def parseFull (cs : List Char) : Except Refusal Uri := do
  let (scheme?, rest) ← takeScheme cs
  let (authority, rest) ← takeAuthority rest
  match scheme? with
  | none => if rest.isEmpty then return { authority? := some authority } else throw .badFormat
  | some scheme =>
    if authority.isEmpty then throw .badFormat
    else
      let query? ← takePath rest
      return { scheme? := some scheme, authority? := some authority, query? }

def ofChars (cs : List Char) : Except Refusal Uri :=
  if maxLength < byteLength cs then .error .tooLong
  else
    match cs with
    | [] => .error .empty
    | ['/'] | ['*'] => .ok {}
    | '/' :: _ => (takePath cs).map fun query? => { query? }
    | [c] =>
      if endsAuthority c then .error .badCharacter
      else (Scan.run {} [c]).map fun _ => { authority? := some [c] }
    | _ => parseFull cs

def parse (raw : String) : Except Refusal Uri := ofChars raw.toList

/-! ## Host and port -/

/-- What follows the last occurrence of a character, or the whole text. -/
def afterLast (c : Char) (cs : List Char) : List Char := (cs.reverse.takeWhile (· ≠ c)).reverse

/-- The host of an authority: without user information, and a bracketed host up to its bracket. -/
def hostOf (authority : List Char) : List Char :=
  let rest := afterLast '@' authority
  match rest with
  | '[' :: _ => rest.takeWhile (· ≠ ']') ++ [']']
  | _ => rest.takeWhile (· ≠ ':')

def maxPort : Nat := 65535

/-- The port of an authority: what follows its last colon, if that is a 16-bit number. -/
def portOf? (authority : List Char) : Option Nat :=
  if authority.contains ':' then
    match Text.readUnsigned? (afterLast ':' authority) with
    | some n => if n ≤ maxPort then some n else none
    | none => none
  else none

end Uri

end Steering
