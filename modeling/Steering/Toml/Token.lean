import Steering.Toml.Quotation

/-!
# `Steering.Toml.Token` — the words and marks of a TOML text

The finest structure of a text: which characters belong together. A word is a key or a scalar, or a
piece of one, and it is kept as it is written. A bare word runs up to the next delimiter. A quoted
word runs up to its closing mark; one that is not closed ends with its line, or with the text if it
may span several lines. That the mark is missing, or that a character between the marks may not
stand there, is a fault in the word, and no concern of this module.

Only two texts have no tokens: those in which a comment holds a character that may not stand there,
and those in which a carriage return stands alone.
-/

namespace Steering.Toml

/-- A key or a scalar as it is written, quotation marks included. -/
abbrev Word := List Char

/-- What a text is made of. -/
inductive Token where
  /-- A dot, an equals sign, a comma or a bracket. -/
  | mark (c : Char)
  | space (cs : List Char)
  | lineBreak
  | comment
  | quoted (w : Word)
  | bare (w : Word)
  deriving DecidableEq, Inhabited, Repr

namespace Token

/-- The number of characters of a quoted word behind its opening mark. Between basic marks a
backslash keeps a mark or a backslash behind it from being looked at. A long word, which has three
marks on either side, may end in two marks of its own. -/
def lengthToClose (mark : Char) (long : Bool) : List Char → Nat
  | [] => 0
  | '\\' :: c :: rest =>
    if mark = '"' ∧ (c = '"' ∨ c = '\\') then 2 + lengthToClose mark long rest
    else 1 + lengthToClose mark long (c :: rest)
  | c :: rest =>
    if c = mark ∧ ¬long then 1
    else if c = mark ∧ rest.take 2 = [mark, mark] then
      min 5 ((c :: rest).takeWhile (· = mark)).length
    else if c = '\n' ∧ ¬long then 0
    else 1 + lengthToClose mark long rest

/-- The number of characters of a quoted word, with the characters behind its first mark given. -/
def quotedLength (mark : Char) (cs : List Char) : Nat :=
  if cs.take 2 = [mark, mark] then 3 + lengthToClose mark true (cs.drop 2)
  else 1 + lengthToClose mark false cs

/-- Whether a character is a token of its own. -/
def isMark (c : Char) : Bool := ".=,[]\x7b\x7d".toList.contains c

def isSpace (c : Char) : Bool := c = ' ' || c = '\t'

/-- Whether a character ends a bare word. -/
def endsWord (c : Char) : Bool := isMark c || isSpace c || c = '\n' || c = '\r' || c = '#'

/-- Cuts the first token off a text. -/
def take? : List Char → Option (Token × List Char)
  | [] => none
  | '\n' :: rest | '\r' :: '\n' :: rest => some (.lineBreak, rest)
  | '\r' :: _ => none
  | '#' :: rest =>
    let rest := rest.dropWhile isAllowed
    if rest.isEmpty || startsLine rest then some (.comment, rest) else none
  | c :: rest =>
    if isMark c then some (.mark c, rest)
    else if isSpace c then
      some (.space (c :: rest.takeWhile isSpace), rest.dropWhile isSpace)
    else if c = '"' ∨ c = '\'' then
      let (w, rest) := (c :: rest).splitAt (quotedLength c rest)
      some (.quoted w, rest)
    else some (.bare (c :: rest.takeWhile (!endsWord ·)), rest.dropWhile (!endsWord ·))

theorem quotedLength_pos (mark : Char) (cs : List Char) : 0 < quotedLength mark cs := by
  unfold quotedLength
  split <;> omega

/-- A token takes at least one character. -/
theorem length_lt_of_take? {cs rest : List Char} {token : Token}
    (h : take? cs = some (token, rest)) : rest.length < cs.length := by
  have drops : ∀ (p : Char → Bool) (l : List Char), (l.dropWhile p).length ≤ l.length :=
    fun p l => (List.dropWhile_suffix p).length_le
  unfold take? at h
  split at h
  · exact absurd h (by simp)
  · simp only [Option.some.injEq, Prod.mk.injEq] at h
    simp [← h.2]
  · simp only [Option.some.injEq, Prod.mk.injEq] at h
    rw [← h.2, List.length_cons, List.length_cons]
    omega
  · exact absurd h (by simp)
  · rename_i tail
    have := drops isAllowed tail
    dsimp only at h
    split at h
    · simp only [Option.some.injEq, Prod.mk.injEq] at h
      rw [← h.2, List.length_cons]
      omega
    · exact absurd h (by simp)
  · rename_i c tail _ _ _ _
    have h1 := drops isSpace tail
    have h2 := drops (!endsWord ·) tail
    have h3 := quotedLength_pos c tail
    split at h
    · simp only [Option.some.injEq, Prod.mk.injEq] at h
      simp [← h.2]
    · split at h
      · simp only [Option.some.injEq, Prod.mk.injEq] at h
        rw [← h.2, List.length_cons]
        omega
      · split at h
        · simp only [List.splitAt_eq, Option.some.injEq, Prod.mk.injEq] at h
          rw [← h.2, List.length_drop, List.length_cons]
          omega
        · simp only [Option.some.injEq, Prod.mk.injEq] at h
          rw [← h.2, List.length_cons]
          omega

/-- The tokens of a text, with a bound on their number. -/
def ofChars? : Nat → List Char → Option (List Token)
  | _, [] => some []
  | 0, _ => none
  | fuel + 1, cs => do
    let (token, rest) ← take? cs
    let tokens ← ofChars? fuel rest
    return token :: tokens

/-- The bound does not decide anything: a token takes at least one character, so as many tokens as there
are characters are enough. -/
theorem ofChars?_eq_of_length_le {fuel fuel' : Nat} {cs : List Char} (h : cs.length ≤ fuel)
    (h' : cs.length ≤ fuel') : ofChars? fuel cs = ofChars? fuel' cs := by
  induction fuel generalizing fuel' cs with
  | zero =>
    obtain rfl := List.length_eq_zero_iff.1 (Nat.le_zero.1 h)
    simp only [ofChars?]
  | succ fuel ih =>
    cases cs with
    | nil => simp only [ofChars?]
    | cons c rest =>
      cases fuel' with
      | zero => exact absurd h' (Nat.not_succ_le_zero _)
      | succ fuel' =>
        simp only [ofChars?]
        cases htake : take? (c :: rest) with
        | none => rfl
        | some taken =>
          have hlt := length_lt_of_take? htake
          have hsame := ih (Nat.le_of_lt_succ (Nat.lt_of_lt_of_le hlt h))
            (Nat.le_of_lt_succ (Nat.lt_of_lt_of_le hlt h'))
          simp only [Option.bind_eq_bind, Option.bind_some, hsame]

/-- The tokens of a text; a byte order mark in front of it is dropped. -/
def ofText? (text : String) : Option (List Token) :=
  match text.toList with
  | '\ufeff' :: cs | cs => ofChars? cs.length cs

end Token

end Steering.Toml
