import Steering.Endpoint
import Steering.Node
import Steering.Subset

/-!
# `Steering.Publication` — what is made of a list of instances

A list from a registry is not published as it stands. Instances whose endpoint is not usable under
the expected scheme are dropped; of several instances at one address the first one counts; and if
the client uses only a subset, the subset is taken of what is left. The order of the list is kept
up to there.

Nothing that fails here is an error: an instance that cannot be used is as good as none.
-/

namespace Steering.Publication

/-- The address of an instance, if its endpoint is usable. -/
def addressOf? (scheme : String) (s : Service) : Option Address :=
  match Endpoint.resolve s.endpoint scheme with
  | .ok addr => some { scheme, addr, service := s }
  | .error _ => none

/-- Keeps the first of the addresses that are equal, and none that has been seen before. -/
def distinct (seen : List String) : List Address → List Address
  | [] => []
  | a :: rest => if a.addr ∈ seen then distinct seen rest else a :: distinct (a.addr :: seen) rest

/-- The usable addresses of a list of instances. -/
def usable (scheme : String) (services : List Service) : List Address :=
  distinct [] (services.filterMap (addressOf? scheme))

/-- The addresses to publish for a list of instances. -/
def ofServices (scheme : String) (subset? : Option Subset) (services : List Service) :
    List Address :=
  match subset? with
  | some select => select (usable scheme services)
  | none => usable scheme services

def nodes (addresses : List Address) : List Node :=
  addresses.map fun a => Node.ofService a.scheme a.addr a.service

end Steering.Publication
