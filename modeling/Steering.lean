import Steering.Hash
import Steering.Draw
import Steering.Text.Quoted
import Steering.Text.Blank
import Steering.Text.Span
import Steering.Binary64
import Steering.Table
import Steering.Fault
import Steering.Service
import Steering.Target
import Steering.Endpoint
import Steering.FileTree
import Steering.Settings
import Steering.Instance
import Steering.JsonNumber
import Steering.Toml.Document
import Steering.SettingsText
import Steering.NodeSet
import Steering.Subset
import Steering.Registry
import Steering.Watcher
import Steering.Feed
import Steering.Subscription
import Steering.Replay
import Steering.Publication
import Steering.ChangeStream
import Steering.Resolver
import Steering.ChannelCache
import Steering.Client
import Steering.Resolver.Rest
import Steering.Proofs.RoundRobin.Run
import Steering.Proofs.RoundRobin.Bound
import Steering.Proofs.RoundRobin.Word
import Steering.Proofs.RoundRobin.Share
import Steering.Proofs.RoundRobin.Conservation
import Steering.Proofs.Ring.Roster
import Steering.Proofs.Ring.Layout
import Steering.Proofs.Ring.Lookup
import Steering.Proofs.Ring.Refinement
import Steering.Proofs.Resolver.Handover
import Steering.Proofs.Resolver.Race
import Steering.Proofs.Ring.Stored
import Steering.Proofs.Ring.Follow
import Steering.Proofs.Ring.Removal
import Steering.Proofs.Ring.History
import Steering.Proofs.Ring.Affinity
import Steering.Proofs.Ring.Reconcile
import Steering.Proofs.Ring.Search
import Steering.Proofs.Ring.Coherence
import Steering.Proofs.NodeSet.Drained
import Steering.Proofs.NodeSet.Pick
import Steering.Proofs.NodeSet.InStep
import Steering.Proofs.Publication
import Steering.Proofs.Resolver.End
import Steering.Proofs.ChangeStream.Account
import Steering.Proofs.ChangeStream.Exact
import Steering.Proofs.Client.Channels
import Steering.Proofs.ChangeStream.Latest
import Steering.Proofs.Encryption
import Steering.Proofs.Resolver.Bare
import Steering.Proofs.Resolver.Standstill
import Steering.Proofs.Client.Sinks
import Steering.Proofs.Publication.Refresh
import Steering.Proofs.Subset
import Steering.Proofs.Text.Decimal
import Steering.Proofs.Text.Cut
import Steering.Proofs.Target
import Steering.Proofs.Weight
import Steering.Proofs.Uri.Scan
import Steering.Proofs.Uri.Host
import Steering.Proofs.Uri.Whole
import Steering.Proofs.Uri.Parse
import Steering.Proofs.Uri.Absolute
import Steering.Proofs.Endpoint.Address
import Steering.Proofs.Endpoint.Port
import Steering.Proofs.Endpoint.Usable
import Steering.Proofs.Registry.Order
import Steering.Proofs.Registry.Readership
import Steering.Proofs.Resolver.Wait
import Steering.Proofs.Client.Cache
import Steering.Proofs.Resolver.Retry
