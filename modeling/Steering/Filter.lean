import Steering.Context
import Steering.Node

/-!
# `Steering.Filter` — narrowing the nodes that a call may go to

A filter is any function on lists of nodes that may look at the call. Nothing is assumed of it: it
may empty, reorder or repeat its input, or add to it, and the laws about picks hold all the same.
Two common filters are given.
-/

namespace Steering

abbrev Filter := Context → List WeightedNode → List WeightedNode

namespace Filter

def byVersion (version : String) : Filter := fun _ nodes =>
  nodes.filter fun n => n.service.version = version

/-- Keeps the nodes whose metadata has a key, with a given value if one is given. -/
def byMetadata (key : String) (value? : Option String) : Filter := fun _ nodes =>
  nodes.filter fun n =>
    match value? with
    | some value => n.service.metadata.get? key = some value
    | none => n.service.metadata.contains key

/-- The result of filters, one after the other. -/
def run (filters : List Filter) (c : Context) (nodes : List WeightedNode) : List WeightedNode :=
  filters.foldl (fun nodes f => f c nodes) nodes

end Filter

end Steering
