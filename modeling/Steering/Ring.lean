import Steering.Hash
import Steering.Table

/-!
# `Steering.Ring` — consistent hashing

Each member of a ring has a number of *positions*, the digests of its text with an index behind it.
A key belongs to the member at the first position at or after the key's own digest, going round
past the end. A member that joins or leaves moves only the keys next to its positions.

Members are told apart by their text alone; what a text stands for is stored with each position. Two
members can share a position — `a` with index 10 and `a1` with index 0 are one text — and then a
second digest of the key, salted, says which of the *acceptable* nodes there is meant.

A ring is kept as three tables that every change updates step by step: the sorted positions, with
one copy for each member and index that has it; the nodes at each position, in the order in which
they came; and the number of positions of each member.
-/

namespace Steering

structure Ring (α : Type) where
  /-- The positions that a member has unless it is given fewer. -/
  replicas : Nat
  /-- The positions in use, in ascending order. -/
  keys : List Nat
  /-- The nodes at each position. -/
  slots : Table Nat (List α)
  /-- The number of positions of each member. -/
  members : Table String Nat

namespace Ring

/-- The positions of a member if nothing else is asked for. -/
def defaultReplicas : Nat := 32

/-- The weight that stands for all positions. -/
def fullWeight : Nat := 100

/-- The prefix of the second digest of a key. -/
def salt : String := "16777619:"

def position (text : String) (index : Nat) : Nat := Hash.ofText (text ++ toString index)

/-- The first `n` positions of a member. -/
def positions (text : String) (n : Nat) : List Nat := (List.range n).map (position text)

/-- Puts a number in its place in an ascending list. -/
def insertSorted (k : Nat) : List Nat → List Nat
  | [] => [k]
  | x :: rest => if k ≤ x then k :: x :: rest else x :: insertSorted k rest

section

variable {α : Type} [ToString α]

def empty (replicas : Nat) : Ring α where
  replicas := if replicas = 0 then defaultReplicas else replicas
  keys := []
  slots := Table.empty
  members := Table.empty

instance : Inhabited (Ring α) := ⟨empty defaultReplicas⟩

/-! ## Members -/

def size (r : Ring α) : Nat := r.members.size

def isEmpty (r : Ring α) : Bool := r.size = 0

/-- Whether a text is a member's. -/
def hasText (r : Ring α) (text : String) : Bool := r.members.contains text

def contains (r : Ring α) (a : α) : Bool := r.hasText (toString a)

/-- The slots without a text's nodes at one position. -/
def clearSlot (text : String) (slots : Table Nat (List α)) (k : Nat) : Table Nat (List α) :=
  match slots.get? k with
  | none => slots
  | some nodes =>
    let kept := nodes.filter fun a => toString a ≠ text
    if kept.isEmpty then slots.erase k else slots.insert k kept

/-- The slots with one more node at a position. -/
def fillSlot (a : α) (slots : Table Nat (List α)) (k : Nat) : Table Nat (List α) :=
  slots.insert k ((slots.get? k).getD [] ++ [a])

/-- Removes the member of a text, and says whether there was one. -/
def delete (r : Ring α) (text : String) : Ring α × Bool :=
  match r.members.get? text with
  | none => (r, false)
  | some n =>
    let gone := positions text n
    ({ r with
        keys := gone.foldl (fun keys k => keys.erase k) r.keys
        slots := gone.foldl (clearSlot text) r.slots
        members := r.members.erase text }, true)

/-- Makes a node a member with `n` positions; a member with its text is removed first. -/
def join (r : Ring α) (a : α) (n : Nat) : Ring α :=
  let r := (r.delete (toString a)).1
  let added := positions (toString a) n
  { r with
    keys := added.foldl (fun keys k => insertSorted k keys) r.keys
    slots := added.foldl (fillSlot a) r.slots
    members := r.members.insert (toString a) n }

/-- Adds a node with a number of positions, at most those of a full member. A node without positions
could never be found, so it is removed. -/
def addReplicas (r : Ring α) (a : α) (n : Nat) : Ring α :=
  let n := min n r.replicas
  if n = 0 then (r.delete (toString a)).1 else r.join a n

def add (r : Ring α) (a : α) : Ring α := r.addReplicas a r.replicas

/-- The positions that a weight is worth: its share of a full member's, at least one, and none for
weight zero. The product is held to a word of 64 bits. -/
def replicasOf (r : Ring α) (weight : Nat) : Nat :=
  if weight = 0 then 0 else max (min (r.replicas * weight) (Nat.pow 2 64 - 1) / fullWeight) 1

/-- Adds a node with the positions that a weight is worth. -/
def addWeight (r : Ring α) (a : α) (weight : Nat) : Ring α := r.addReplicas a (r.replicasOf weight)

def remove (r : Ring α) (a : α) : Ring α × Bool := r.delete (toString a)

/-! ## Lookup -/

/-- The node that a key means among the acceptable ones at one position. -/
def pickInSlot (nodes : List α) (key : String) (accept : α → Bool) : Option α :=
  match nodes.filter accept with
  | [] => none
  | [a] => some a
  | acceptable => acceptable[Hash.ofText (salt ++ key) % acceptable.length]?

/-- The positions in the order in which a key with a given digest looks at them. -/
def clockwise (r : Ring α) (digest : Nat) : List Nat :=
  r.keys.dropWhile (· < digest) ++ r.keys.takeWhile (· < digest)

/-- The first acceptable node for a key. -/
def getWhere (r : Ring α) (key : String) (accept : α → Bool) : Option α :=
  (r.clockwise (Hash.ofText key)).findSome? fun k =>
    (r.slots.get? k).bind fun nodes => pickInSlot nodes key accept

def get (r : Ring α) (key : String) : Option α := r.getWhere key fun _ => true

/-! ## Reconciliation -/

/-- The nodes of a list by text; of equal texts the last one counts. -/
def wanted (nodes : List α) : Table String α := Table.ofList (nodes.map fun a => (toString a, a))

/-- Whether the members' texts are exactly the keys of a table. -/
def hasExactly (r : Ring α) (t : Table String α) : Bool :=
  r.members.size = t.size && t.keys.all r.hasText

/-- Adds a node as a full member if its text is not a member's yet. -/
def joinMissing (r : Ring α) (e : String × α) : Ring α :=
  if r.hasText e.1 then r else r.join e.2 r.replicas

/-- Makes the members those of a list, and says whether anything changed. Members that stay are left
alone. Stale ones leave in the order that `dismiss` puts their texts in, and new ones join in the
order that `arrange` puts them in. -/
def reconcileBy (dismiss : List String → List String)
    (arrange : List (String × α) → List (String × α)) (r : Ring α) (nodes : List α) :
    Ring α × Bool :=
  let t := wanted nodes
  if r.hasExactly t then (r, false)
  else
    let stale := dismiss (r.members.keys.filter fun text => !t.contains text)
    let r := stale.foldl (fun r text => (r.delete text).1) r
    ((arrange t.entries).foldl joinMissing r, true)

/-- Makes the members those of a list; stale ones leave in the order in which they came, and new ones
join in the order of the list. -/
def reconcile (r : Ring α) (nodes : List α) : Ring α × Bool := r.reconcileBy id id nodes

end

end Ring

end Steering
