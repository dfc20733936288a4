import Steering.Table
import Steering.Text.Blank
import Steering.Text.Decimal

/-!
# `Steering.Service` — an instance of a service, and its weight

An instance is known by an id within its service name; its endpoint is free text until somebody
tries to use it. Metadata is a table of texts, and one key of it, `weight`, is the instance's own
wish for a share of the traffic.

A weight text counts when it is a decimal number, optionally signed, with any white space around it,
that a signed word of 64 bits holds and that is not negative. Everything else is the same as no
weight at all.
-/

namespace Steering

/-- The metadata of an instance or of a call. -/
abbrev Metadata := Table String String

/-- An instance of a service, as the registry knows it. -/
structure Service where
  id : String
  name : String
  version : String := ""
  endpoint : String
  metadata : Metadata := Table.empty
  deriving Inhabited

/-- The greatest number that a signed word of 64 bits holds. -/
def maxWeight : Int := 9223372036854775807

/-- The least number that a signed word of 64 bits holds. -/
def minWeight : Int := -9223372036854775808

/-- Reads a weight text. -/
def readWeight? (text : String) : Option Int :=
  match Text.readSigned? (Text.trim text.toList) with
  | some w => if 0 ≤ w ∧ w ≤ maxWeight then some w else none
  | none => none

namespace Service

def weightKey : String := "weight"

def withVersion (s : Service) (version : String) : Service := { s with version }

def withMetadata (s : Service) (key value : String) : Service :=
  { s with metadata := s.metadata.insert key value }

def withWeight (s : Service) (weight : Int) : Service := s.withMetadata weightKey (toString weight)

/-- The weight that an instance asks for, if its metadata holds a valid one. -/
def weight? (s : Service) : Option Int := (s.metadata.get? weightKey).bind readWeight?

end Service

end Steering
