import ReplicatedCache.Hash.Xxh3
import ReplicatedCache.Entry
import ReplicatedCache.Stats
import ReplicatedCache.ExpiryQueue
import ReplicatedCache.Fifo
import ReplicatedCache.Eviction.Trace
import ReplicatedCache.Segment
import ReplicatedCache.EventFeed
import ReplicatedCache.Engine.Shards
import ReplicatedCache.Engine.Contents
import ReplicatedCache.Engine.Audience
import ReplicatedCache.Engine.Reaper
import ReplicatedCache.Cluster.Switched
import ReplicatedCache.Cluster.Basic
import ReplicatedCache.Wire.Frame
import ReplicatedCache.Transport.Remote
import ReplicatedCache.Main
import ReplicatedCache.Proofs.Time
import ReplicatedCache.Proofs.Engine.Bindings
import ReplicatedCache.Proofs.Engine.Signals
import ReplicatedCache.Proofs.Engine.Twins
import ReplicatedCache.Proofs.Engine.Onlookers
import ReplicatedCache.Proofs.Engine.Soundness
import ReplicatedCache.Proofs.Engine.Sweep
import ReplicatedCache.Proofs.Engine.Steps
import ReplicatedCache.Proofs.Engine.QuietListeners
import ReplicatedCache.Proofs.Engine.Reaping
import ReplicatedCache.Proofs.Engine.TtlMap
import ReplicatedCache.Proofs.Engine.Refinement
import ReplicatedCache.Proofs.Engine.Swaps
import ReplicatedCache.Proofs.Engine.Moments
import ReplicatedCache.Proofs.Engine.Reentrancy
import ReplicatedCache.Proofs.Engine.Sights
import ReplicatedCache.Proofs.Cluster.Account
import ReplicatedCache.Proofs.Cluster.History
import ReplicatedCache.Proofs.Cluster.Order
import ReplicatedCache.Proofs.Engine.LeastRecent
import ReplicatedCache.Proofs.Engine.Calls
import ReplicatedCache.Proofs.Cluster.Quorum
import ReplicatedCache.Proofs.Cluster.Delivery
import ReplicatedCache.Proofs.Cluster.Engines
import ReplicatedCache.Proofs.Cluster.Durability
import ReplicatedCache.Proofs.Cluster.Lockstep
import ReplicatedCache.Proofs.Cluster.FreshTokens
import ReplicatedCache.Proofs.Cluster.Agreement
import ReplicatedCache.Proofs.Cluster.Deadlines
import ReplicatedCache.Proofs.Cluster.Membership
import ReplicatedCache.Proofs.Cluster.Disruption
import ReplicatedCache.Proofs.Cluster.Deferral
import ReplicatedCache.Proofs.Engine.Discretion
import ReplicatedCache.Proofs.Cluster.OwnWrites
import ReplicatedCache.Proofs.Wire.Stream
import ReplicatedCache.Proofs.Transport.Remote
import ReplicatedCache.Proofs.Engine.Restoring
import ReplicatedCache.Proofs.Engine.Bounds
import ReplicatedCache.Proofs.Engine.Announcements
import ReplicatedCache.Proofs.Engine.Fingerprints
import ReplicatedCache.Proofs.Cluster.Solitary
import ReplicatedCache.Proofs.Engine.Thinning
import ReplicatedCache.Proofs.Engine.Isolation
import ReplicatedCache.Proofs.Cluster.Distance
import ReplicatedCache.Proofs.Segment.Refinement
import ReplicatedCache.Proofs.Transport.Conversation
import ReplicatedCache.Proofs.Engine.Dealings
import ReplicatedCache.Proofs.Engine.Balance
import ReplicatedCache.Proofs.Eviction.Sketch
import ReplicatedCache.Proofs.Segment.Informing
import ReplicatedCache.Proofs.Segment.Uses
import ReplicatedCache.Proofs.Segment.Frequency
import ReplicatedCache.Proofs.Segment.LeastRecent
import ReplicatedCache.Proofs.Engine.LastRecords
import ReplicatedCache.Proofs.Engine.Digests
import ReplicatedCache.Proofs.Engine.SingleChanges
import ReplicatedCache.Proofs.Wire.Canonical
import ReplicatedCache.Proofs.Transport.Room
import ReplicatedCache.Proofs.Segment.Restores
import ReplicatedCache.Proofs.Cluster.Passes
import ReplicatedCache.Proofs.Settings.Precedence
import ReplicatedCache.Proofs.Engine.Renewal
import ReplicatedCache.Proofs.ExpiryQueue.Runs
import ReplicatedCache.Proofs.Recency.Line
import ReplicatedCache.Proofs.Engine.Visits
