import Steering.Toml.Phrase
import Steering.Toml.Tree

/-!
# `Steering.Toml.Document` — what the lines of a TOML text say

The structure of the text is known (`Steering.Toml.Phrase`); here its words are given their meaning
and written into a tree, strictly in the order of the text: the keys of a path, its length, the
value behind it, and whether the tree may be written there. The first of these that fails decides
the refusal. An element of an array of tables is written at its end, behind its last line: whether
there can be such an array is not asked before.

Two kinds of refusal can be told apart. A path may have eighty keys, and a longer one is refused for
its length; everything else that is wrong with a text is one and the same refusal.
-/

namespace Steering.Toml

inductive Refusal where
  | malformed
  | pathTooLong
  deriving DecidableEq, Inhabited, Repr

def Refusal.message : Refusal → String
  | malformed => "not a TOML document"
  | pathTooLong => "recursion limit\n"

/-- What a reader found, or the refusal of a text in which it found nothing. -/
def orMalformed {α : Type} : Option α → Except Refusal α
  | none => .error .malformed
  | some a => .ok a

/-! ## Words and paths -/

/-- The text of a quoted word, if the word ends with its closing mark. -/
def quotedText? (w : Word) : Option String :=
  match takeQuotation? w with
  | some (text, []) => some (String.ofList text)
  | _ => none

/-- Whether a character may stand in a key without quotation marks. -/
def isBareKeyChar (c : Char) : Bool := c.isAlphanum || c = '_' || c = '-'

/-- The key that a word denotes. A word that may span several lines is none, nor is the empty word.
-/
def keyOf? (w : Word) : Option String :=
  match w with
  | [] => none
  | '"' :: '"' :: '"' :: _ | '\'' :: '\'' :: '\'' :: _ => none
  | '"' :: _ | '\'' :: _ => quotedText? w
  | w => if w.all isBareKeyChar then some (String.ofList w) else none

def scalarOf? (w : Word) : Option Datum :=
  match w with
  | '"' :: _ | '\'' :: _ => (quotedText? w).map .text
  | w => readScalar? w

/-- The keys of a path: the ones before the last, and the last. -/
def Path.keys (path : Path) : Except Refusal (List String × String) := do
  let earlier ← path.earlier.mapM fun w => orMalformed (keyOf? w)
  let last ← orMalformed (keyOf? path.last)
  if maxDepth ≤ earlier.length then throw .pathTooLong
  return (earlier, last)

/-! ## Phrases -/

namespace Phrase

mutual

def datum : Phrase → Except Refusal Datum
  | word w => orMalformed (scalarOf? w)
  | array elements => do
    let ds ← data elements
    return .list ds
  | table entries => do
    let tree ← write [] entries
    return .table (Tree.data tree)

/-- The data that phrases denote, one after the other. -/
def data : List Phrase → Except Refusal (List Datum)
  | [] => .ok []
  | phrase :: rest => do
    let d ← phrase.datum
    let ds ← data rest
    return d :: ds

/-- Writes the entries of an inline table into a tree. -/
def write (tree : Entries) : List (Path × Phrase) → Except Refusal Entries
  | [] => .ok tree
  | (path, phrase) :: rest => do
    let (earlier, key) ← path.keys
    let d ← phrase.datum
    let tree ← orMalformed (Tree.addValue earlier key d tree)
    write tree rest

end

end Phrase

/-! ## Lines -/

/-- Where the lines under a header go. -/
inductive Scope where
  /-- Into the tree, to the table at the end of a path. -/
  | table (path : List String)
  /-- Into a new element of the array of tables at a path and a key. It joins the array when its
  lines are complete. -/
  | element (path : List String) (key : String) (entries : Entries)
  deriving Inhabited

/-- The tree so far, and where the next line goes. -/
structure Draft where
  tree : Entries := []
  scope : Scope := .table []
  deriving Inhabited

namespace Draft

/-- The tree with the element that is under way. -/
def completeTree (draft : Draft) : Except Refusal Entries :=
  match draft.scope with
  | .table _ => .ok draft.tree
  | .element path key entries =>
    orMalformed (Tree.alongHeader (Tree.appendTable key entries) path draft.tree)

/-- Writes a value under a path into the table that lines go to. -/
def add (draft : Draft) (earlier : List String) (key : String) (d : Datum) : Option Draft :=
  let write := Tree.addValue earlier key d
  match draft.scope with
  | .table path => (Tree.alongHeader write path draft.tree).map fun tree => { draft with tree }
  | .element path name entries =>
    (write entries).map fun entries => { draft with scope := .element path name entries }

def write (draft : Draft) : Line → Except Refusal Draft
  | .tableHeader path => do
    let tree ← draft.completeTree
    let (earlier, key) ← path.keys
    let tree ← orMalformed (Tree.alongHeader (Tree.stateTable key) earlier tree)
    return { tree, scope := .table (earlier ++ [key]) }
  | .arrayHeader path => do
    let tree ← draft.completeTree
    let (earlier, key) ← path.keys
    return { tree, scope := .element earlier key [] }
  | .entry path value => do
    let (earlier, key) ← path.keys
    let d ← value.datum
    orMalformed (draft.add earlier key d)

end Draft

def parse (text : String) : Except Refusal Datum := do
  let lines ← orMalformed (Line.ofText? text)
  let draft ← lines.foldlM Draft.write {}
  let tree ← draft.completeTree
  return .table (Tree.data tree)

end Steering.Toml
