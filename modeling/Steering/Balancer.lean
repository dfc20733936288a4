import Steering.Draw
import Steering.Fault
import Steering.Ring
import Steering.RoundRobin
import Steering.Strategy

/-!
# `Steering.Balancer` — choosing one node per call

A balancer is the state of one of the three methods: a random stream, the round robin's credits, or
a ring of addresses together with a random stream for the calls that the ring has no answer for. A
pick gives a node of its candidates and the state afterwards; it fails exactly if there are no
candidates.

`update` tells the method that the routing table has been replaced. Only then does a ring change:
picks look for the clockwise next *candidate* on it, so filtered candidates do not disturb it.
-/

namespace Steering

inductive Balancer where
  | random (stream : KeyStream)
  | roundRobin (credits : Credits)
  | hashed (ring : Ring String) (stream : KeyStream)
  deriving Inhabited

namespace Balancer

def name : Balancer → String
  | random _ => "random"
  | roundRobin _ => "wrr"
  | hashed .. => "consistent_hash"

/-- A new balancer of a method. The stream is used where the method draws. -/
def ofStrategy (strategy : Strategy) (virtualNodes : Nat) (stream : KeyStream) : Balancer :=
  match strategy with
  | .random => random stream
  | .weightedRoundRobin => roundRobin Table.empty
  | .consistentHash => hashed (Ring.empty virtualNodes) stream

/-- Takes notice of a new routing table. -/
def update (b : Balancer) (nodes : List WeightedNode) : Balancer :=
  match b with
  | random stream => random stream
  | roundRobin credits => roundRobin (RoundRobin.update credits nodes)
  | hashed ring stream => hashed (ring.reconcile (nodes.map WeightedNode.address)).1 stream

def drawNode (stream : KeyStream) (nodes : List WeightedNode) : Option (WeightedNode × KeyStream) :=
  let draw := stream.draw64 nodes.length
  nodes[draw.1]?.map fun n => (n, draw.2)

/-- The first candidate at the address that a key belongs to among the candidates' addresses. -/
def pickByKey (ring : Ring String) (key : String) (nodes : List WeightedNode) :
    Option WeightedNode :=
  (ring.getWhere key fun address => nodes.any fun n => n.address = address).bind fun address =>
    nodes.find? fun n => n.address = address

def pick? (b : Balancer) (c : Context) (nodes : List WeightedNode) :
    Option (WeightedNode × Balancer) :=
  match b with
  | random stream => (drawNode stream nodes).map fun (n, s) => (n, random s)
  | roundRobin credits => (RoundRobin.pick credits nodes).map fun (n, t) => (n, roundRobin t)
  | hashed ring stream =>
    match c.hashKey?.bind fun key => pickByKey ring key nodes with
    | some n => some (n, hashed ring stream)
    | none => (drawNode stream nodes).map fun (n, s) => (n, hashed ring s)

def pick (b : Balancer) (c : Context) (nodes : List WeightedNode) :
    Except Fault (WeightedNode × Balancer) :=
  match b.pick? c nodes with
  | some r => .ok r
  | none => .error .noAvailableNode

end Balancer

end Steering
