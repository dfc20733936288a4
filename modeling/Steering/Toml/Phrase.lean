import Steering.Toml.Token

/-!
# `Steering.Toml.Phrase` — paths, phrases and lines

A document is understood in two steps, and this is the first: it finds which brackets enclose what
and which path stands in front of which value, and leaves every word as it is written. What words
mean is the second step (`Steering.Toml.Document`), and it only starts on a text whose structure is
sound as a whole, so a fault in the structure outranks a fault in a word wherever the two stand.

Not everything that is missing is a fault in the structure. Where a key or a value should be and the
text goes on as if it had been there, the empty word stands for it, and no meaning will be found for
that.

Phrases nest, and a nest deeper than eighty levels is refused, so the two recursions that a phrase
needs — down into it, and along its elements — have a bound each: the levels that are left, and an
allowance that starts at the number of tokens and is used up by at least one token per element.
-/

namespace Steering.Toml

/-- Keys with dots between them: the ones before the last, and the last. -/
structure Path where
  earlier : List Word
  last : Word
  deriving DecidableEq, Inhabited, Repr

/-- A value as it is written. -/
inductive Phrase where
  | word (w : Word)
  | array (elements : List Phrase)
  | table (entries : List (Path × Phrase))
  deriving Inhabited

/-- A line that is not blank. -/
inductive Line where
  | tableHeader (path : Path)
  | arrayHeader (path : Path)
  | entry (path : Path) (value : Phrase)
  deriving Inhabited

def Phrase.missing : Phrase := .word []

/-- Whether the last key of a path is missing. -/
def Path.isOpen (path : Path) : Bool := path.last.isEmpty

/-! ## Gaps -/

def dropSpace : List Token → List Token
  | .space _ :: rest => rest
  | ts => ts

/-- Whether a token is of no meaning between brackets. -/
def Token.isGap : Token → Bool
  | .space _ | .lineBreak | .comment => true
  | _ => false

/-- Drops spaces, comments and line breaks. -/
def dropGap (ts : List Token) : List Token := ts.dropWhile Token.isGap

/-- Drops what may stand behind the last word of a line, and the line break. -/
def endLine? (ts : List Token) : Option (List Token) :=
  match dropSpace ts with
  | [] | [.comment] => some []
  | .lineBreak :: rest | .comment :: .lineBreak :: rest => some rest
  | _ => none

/-- Whether nothing but a comment is left of a line. -/
def isAtEnd : List Token → Bool
  | [] | .lineBreak :: _ | .comment :: _ => true
  | _ => false

def dropLine (ts : List Token) : List Token := ts.dropWhile fun t => !isAtEnd [t]

/-! ## Words -/

/-- Cuts keys with dots between them off the front of a text, and the space around them; the key in
front is given if it has been cut off already. -/
def takePath : Option Word → List Token → Path × List Token
  | key?, .space _ :: rest => takePath key? rest
  | some key, .mark '.' :: rest =>
    let (path, rest) := takePath none rest
    ({ path with earlier := key :: path.earlier }, rest)
  | some key, ts => (⟨[], key⟩, ts)
  | none, .quoted w :: rest | none, .bare w :: rest => takePath (some w) rest
  | none, .mark '.' :: rest =>
    let (path, rest) := takePath none rest
    ({ path with earlier := [] :: path.earlier }, rest)
  | none, ts => (⟨[], []⟩, ts)

/-- Cuts a scalar without marks off the front of a text. It goes on over dots, and over a space if a
bare word follows. -/
def takeScalar : List Token → Word × List Token
  | .bare w :: rest =>
    let (more, rest) := takeScalar rest
    (w ++ more, rest)
  | .mark '.' :: rest =>
    let (more, rest) := takeScalar rest
    ('.' :: more, rest)
  | .space cs :: .bare w :: rest =>
    let (more, rest) := takeScalar rest
    (cs ++ w ++ more, rest)
  | ts => ([], ts)

/-! ## Phrases -/

/-- Cuts an entry of an inline table off the front of a text, with a reader for values. Both the
equals sign and the value may be missing in front of the closing brace. -/
def takeEntry? (phrase? : List Token → Option (Phrase × List Token)) (ts : List Token) :
    Option ((Path × Phrase) × List Token) :=
  let (path, ts) := takePath none ts
  match dropGap ts with
  | .mark '\x7d' :: rest => some ((path, .missing), .mark '\x7d' :: rest)
  | .mark '=' :: rest =>
    match dropGap rest with
    | .mark '\x7d' :: rest => some ((path, .missing), .mark '\x7d' :: rest)
    | rest => (phrase? rest).map fun p => ((path, p.1), p.2)
  | _ => none

/-- Cuts items with commas between them off the front of a text, up to a closing bracket, with a
reader for the items. A comma may stand behind the last one. -/
def takeItems? {α : Type} (item? : List Token → Option (α × List Token)) (closing : Char) :
    Nat → List Token → Option (List α × List Token)
  | 0, _ => none
  | fuel + 1, ts => do
    let ts := dropGap ts
    if ts.head? = some (.mark closing) then return ([], ts.tail)
    let (item, ts) ← item? ts
    let ts := dropGap ts
    if ts.head? = some (.mark closing) then return ([item], ts.tail)
    let .mark ',' :: rest := ts | none
    let (items, rest) ← takeItems? item? closing fuel rest
    return (item :: items, rest)

def maxDepth : Nat := 80

/-- Cuts a value off the front of a text; `depth` levels of nesting are left. -/
def takePhrase? (depth : Nat) (ts : List Token) : Option (Phrase × List Token) :=
  match depth, ts with
  | depth + 1, .mark '[' :: rest =>
    (takeItems? (takePhrase? depth) ']' (rest.length + 1) rest).map fun p => (.array p.1, p.2)
  | depth + 1, .mark '\x7b' :: rest =>
    let entry? := takeEntry? (takePhrase? depth)
    (takeItems? entry? '\x7d' (rest.length + 1) rest).map fun p => (.table p.1, p.2)
  | _, .quoted w :: rest => some (.word w, rest)
  | _, ts =>
    match takeScalar ts with
    | ([], _) => none
    | (w, rest) => some (.word w, rest)

/-! ## Lines -/

/-- Cuts the path of a header off the front of a text, and its closing brackets. A path that breaks
off may do without them, and the rest of its line is dropped then. -/
def takeHeader? (closing : List Token) (ts : List Token) : Option (Path × List Token) :=
  let (path, ts) := takePath none ts
  if ts.take closing.length = closing then some (path, ts.drop closing.length)
  else if path.isOpen ∧ ts.head? ≠ closing.head? then some (path, dropLine ts)
  else none

/-- Cuts what stands on a line off the front of a text. The value may be missing at the end of the
line. -/
def takeLine? (ts : List Token) : Option (Line × List Token) :=
  match ts with
  | .mark '[' :: .mark '[' :: rest =>
    (takeHeader? [.mark ']', .mark ']'] rest).map fun p => (.arrayHeader p.1, p.2)
  | .mark '[' :: rest => (takeHeader? [.mark ']'] rest).map fun p => (.tableHeader p.1, p.2)
  | ts =>
    match takePath none ts with
    | (path, .mark '=' :: rest) =>
      let rest := dropSpace rest
      if isAtEnd rest then some (.entry path .missing, rest)
      else (takePhrase? maxDepth rest).map fun p => (.entry path p.1, p.2)
    | _ => none

/-- Cuts a text into lines, at most a number of them. -/
def takeLines? : Nat → List Token → Option (List Line)
  | 0, _ => none
  | fuel + 1, ts =>
    match dropSpace ts with
    | [] => some []
    | ts =>
      if isAtEnd ts then (endLine? ts).bind (takeLines? fuel)
      else do
        let (line, rest) ← takeLine? ts
        let rest ← endLine? rest
        let lines ← takeLines? fuel rest
        return line :: lines

/-- The lines of a text that are not blank. -/
def Line.ofText? (text : String) : Option (List Line) :=
  (Token.ofText? text).bind fun ts => takeLines? (ts.length + 1) ts

end Steering.Toml
