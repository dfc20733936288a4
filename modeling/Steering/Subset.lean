import Steering.Draw
import Steering.Hash
import Steering.Service
import Steering.Text.Quoted

/-!
# `Steering.Subset` — using only some of the instances

A client that uses only some of the instances keeps the number of its connections down. Which ones
is decided by the client's key: the addresses are put in a fixed order, by instance id and then by
address, shuffled with a stream that the key seeds, and cut off. So the choice depends on the
members and the key and not on the order in which the members were listed, and clients with
different keys spread over different instances.

A list that is not longer than the wanted size is left as it is.
-/

namespace Steering

/-- An address that was found for an instance. -/
structure Address where
  scheme : String
  addr : String
  service : Service
  deriving Inhabited

/-- A choice among addresses. -/
abbrev Subset := List Address → List Address

structure ShuffleSubset where
  key : String
  size : Nat
  deriving DecidableEq, Inhabited, Repr

namespace ShuffleSubset

/-- The fixed order: by instance id, and by address among equal ids. -/
def ordered (a b : Address) : Bool :=
  if a.service.id = b.service.id then a.addr ≤ b.addr else a.service.id < b.service.id

def select (s : ShuffleSubset) (addresses : List Address) : List Address :=
  if s.size = 0 ∨ addresses.length ≤ s.size then addresses
  else
    (shuffle (KeyStream.ofSeed (Hash.ofText s.key)) (addresses.mergeSort ordered)).take s.size

/-- A key that is made up from a random word: sixteen hexadecimal digits. -/
def randomKey (word : Nat) : String :=
  let digits := Text.hex word
  String.ofList (List.replicate (16 - digits.length) '0') ++ digits

/-- A choice by a key that is made up from a random word. -/
def ofWord (word size : Nat) : ShuffleSubset := { key := randomKey word, size }

end ShuffleSubset

end Steering
