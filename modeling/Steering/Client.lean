import Steering.ChannelCache
import Steering.Resolver

/-!
# `Steering.Client` — steering calls to a target

A client is a resolver and the channels to the nodes that its calls were steered to. It is built
from a plan in which everything has a default but the backend and the target. What can be wrong
with a plan is found in a fixed order: the settings, the missing parts, the target, and then the
backend.
-/

namespace Steering

structure Client (σ : Type) where
  resolver : Resolver σ
  cache : ChannelCache

namespace Client

variable {σ : Type}

structure Plan (σ : Type) where
  settings : Settings := {}
  target? : Option String := none
  /-- How the backend answers the request to watch a name. -/
  discover? : Option (String → Opening σ) := none
  /-- The balancer, if not a new one of the method in the settings. -/
  balancer? : Option Balancer := none
  /-- The weight rule, if not that of the settings. -/
  rule? : Option WeightRule := none
  filters : List Filter := []
  sinks : List Sink := []

/-- What is drawn at random for a new client. -/
structure Chance where
  stream : KeyStream
  /-- The word that a subset's key is made up from. -/
  word : Nat

namespace Plan

/-- The empty routing table of a plan. -/
def nodeSet (p : Plan σ) (stream : KeyStream) : NodeSet where
  rule := p.rule?.getD (.ofDefault p.settings.defaultWeight)
  filters := p.filters
  balancer := p.balancer?.getD (.ofStrategy p.settings.strategy p.settings.virtualNodes stream)

/-- The backend and the target of a plan, if nothing is wrong with it. -/
def check (p : Plan σ) : Except Fault ((String → Opening σ) × Target) :=
  match p.settings.validate, p.discover?, p.target? with
  | .error e, _, _ => .error e
  | .ok _, none, _ => .error (.config "discovery is required")
  | .ok _, some _, none => .error (.config "target is required")
  | .ok _, some discover, some raw => (Target.parse raw).map fun target => (discover, target)

end Plan

/-- Builds a client that waits by a timer, and says how long that took. -/
def build (timer : Timer) (p : Plan σ) (chance : Chance) : Except Fault (Client σ) × Nat :=
  match p.check with
  | .error e => (.error e, 0)
  | .ok (discover, target) =>
    let options := Resolver.Options.ofSettings timer p.settings chance.word
    let (result, elapsedMs) :=
      Resolver.build options target discover (p.nodeSet chance.stream) p.sinks
    let cache := { secure := !p.settings.insecure }
    (result.map fun resolver => { resolver, cache }, elapsedMs)

def nodeSet (c : Client σ) : NodeSet := c.resolver.nodeSet

def pick (c : Client σ) (context : Context) (filters : List Filter) :
    Except Fault (WeightedNode × Client σ) :=
  (c.nodeSet.pick context filters).map fun (n, nodeSet) =>
    (n, { c with resolver := { c.resolver with nodeSet } })

def channelFor (c : Client σ) (n : WeightedNode) : Except Fault Channel × Client σ :=
  let (result, cache) := c.cache.channelFor c.nodeSet.nodes n
  (result, { c with cache })

/-- Steers one call and gives the channel for it. The call counts as steered even if its node turns
out to have no channel. -/
def channel (c : Client σ) (context : Context) : Except Fault (WeightedNode × Channel) × Client σ :=
  match c.pick context [] with
  | .error e => (.error e, c)
  | .ok (n, c) =>
    let (result, c) := c.channelFor n
    (result.map fun channel => (n, channel), c)

end Client

end Steering
