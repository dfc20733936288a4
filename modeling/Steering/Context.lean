import Steering.Service

/-!
# `Steering.Context` — what a caller says about one call

A call may carry a key that ties it to a node as long as the node is there, and metadata for filters
to look at.
-/

namespace Steering

/-- What is known about one call. -/
structure Context where
  hashKey? : Option String := none
  metadata : Metadata := Table.empty
  deriving Inhabited

namespace Context

def withHashKey (c : Context) (key : String) : Context := { c with hashKey? := some key }

def withMetadata (c : Context) (key value : String) : Context :=
  { c with metadata := c.metadata.insert key value }

def get? (c : Context) (key : String) : Option String := c.metadata.get? key

end Context

end Steering
