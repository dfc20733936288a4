import Steering.Endpoint
import Steering.Fault
import Steering.Node

/-!
# `Steering.ChannelCache` — one channel per address

A channel is made the first time that a node at its address is called, and kept. A miss is the
occasion to forget the channels of addresses that have left the routing table, so the cache holds at
most the table's addresses and the one that was asked for last.

Channels are told apart by a serial number: a call gets the same channel as before exactly if it
gets the same number.
-/

namespace Steering

structure Channel where
  uri : String
  serial : Nat
  deriving DecidableEq, Inhabited, Repr

/-- The channels that have been made and are kept. -/
structure ChannelCache where
  secure : Bool
  channels : Table String Channel := Table.empty
  /-- The number of channels made so far. -/
  made : Nat := 0
  deriving Inhabited

namespace ChannelCache

def size (c : ChannelCache) : Nat := c.channels.size

/-- Forgets the channels of addresses that are not in a routing table. -/
def narrow (c : ChannelCache) (nodes : List WeightedNode) : ChannelCache :=
  { c with channels := c.channels.narrow fun address => nodes.any fun n => n.address = address }

def make (c : ChannelCache) (n : WeightedNode) : Except Fault Channel × ChannelCache :=
  let uri := Endpoint.channelUri n.address n.service.endpoint c.secure
  match Uri.parse uri with
  | .error _ => (.error (.invalidEndpoint n.address "invalid URI"), c)
  | .ok _ =>
    let channel := { uri, serial := c.made }
    (.ok channel,
      { c with channels := c.channels.insert n.address channel, made := c.made + 1 })

/-- The channel to a node, while the routing table holds `nodes`. -/
def channelFor (c : ChannelCache) (nodes : List WeightedNode) (n : WeightedNode) :
    Except Fault Channel × ChannelCache :=
  match c.channels.get? n.address with
  | some channel => (.ok channel, c)
  | none => (c.narrow nodes).make n

end ChannelCache

end Steering
