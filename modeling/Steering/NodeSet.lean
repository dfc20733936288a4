import Steering.Balancer

/-!
# `Steering.NodeSet` — the routing table

A node set is the snapshot that calls are steered by, with the rule that weighs nodes, the filters
that every call goes through, and the balancer. A snapshot is replaced as a whole and never by
nothing: an empty list is refused, so a table that was once filled stays filled.

A pick runs the table's own filters and then the caller's. If they leave nothing, the call goes to
the unfiltered snapshot instead of failing.
-/

namespace Steering

structure NodeSet where
  nodes : List WeightedNode := []
  rule : WeightRule := {}
  filters : List Filter := []
  balancer : Balancer
  deriving Inhabited

namespace NodeSet

/-- Replaces the snapshot, and says whether it was replaced. -/
def save (s : NodeSet) (nodes : List Node) : NodeSet × Bool :=
  if nodes.isEmpty then (s, false)
  else
    let weighted := nodes.map s.rule.weigh
    ({ s with nodes := weighted, balancer := s.balancer.update weighted }, true)

/-- The nodes that a call may go to, after the table's filters and the caller's. -/
def candidates (s : NodeSet) (c : Context) (filters : List Filter) : List WeightedNode :=
  Filter.run (s.filters ++ filters) c s.nodes

/-- The nodes that a call's balancer chooses from: the candidates, or the snapshot if there are
none. -/
def choices (s : NodeSet) (c : Context) (filters : List Filter) : List WeightedNode :=
  if (s.candidates c filters).isEmpty then s.nodes else s.candidates c filters

def pick (s : NodeSet) (c : Context) (filters : List Filter) :
    Except Fault (WeightedNode × NodeSet) :=
  if s.nodes.isEmpty then .error .noAvailableNode
  else
    let chosen :=
      if s.filters.isEmpty && filters.isEmpty then s.balancer.pick c s.nodes
      else s.balancer.pick c (s.choices c filters)
    chosen.map fun (n, b) => (n, { s with balancer := b })

end NodeSet

end Steering
