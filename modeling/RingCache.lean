import RingCache.Attendance
import RingCache.Bytes
import RingCache.Clock
import RingCache.Cluster
import RingCache.Counters
import RingCache.Deadline
import RingCache.Digest.XxHash64
import RingCache.Endpoint
import RingCache.Exchange
import RingCache.Failure
import RingCache.Flight
import RingCache.Group
import RingCache.Link
import RingCache.Lock
import RingCache.Membership
import RingCache.Message
import RingCache.Node
import RingCache.Peer
import RingCache.Pool
import RingCache.Registry
import RingCache.Rehearsal
import RingCache.Ring
import RingCache.Schedule
import RingCache.Script
import RingCache.Scripted
import RingCache.Server
import RingCache.Service
import RingCache.Settings
import RingCache.Sink
import RingCache.Store
import RingCache.Table
import RingCache.Utf8
import RingCache.Wire.Encoding
import RingCache.Wire.Frame
import RingCache.Wire.Supply
import RingCache.Wire.Writer
import RingCache.Proofs.Placement
import RingCache.Proofs.Layout
import RingCache.Proofs.Owner
import RingCache.Proofs.PoolSteps
import RingCache.Proofs.Agreement
import RingCache.Proofs.ClusterChange
import RingCache.Proofs.LinkSteps
import RingCache.Proofs.Streams
import RingCache.Proofs.Traffic
import RingCache.Proofs.Exchanges
import RingCache.Proofs.Rota
import RingCache.Proofs.Closures
import RingCache.Proofs.Turns
import RingCache.Proofs.Holdings
import RingCache.Proofs.Calls
import RingCache.Proofs.Errands
import RingCache.Proofs.Concord
import RingCache.Proofs.Demands
import RingCache.Proofs.Custody
import RingCache.Proofs.Ownership
import RingCache.Proofs.Pipelining
import RingCache.Proofs.RemoteCalls
import RingCache.Proofs.Tallies
import RingCache.Proofs.Releases
import RingCache.Proofs.LoneGets
import RingCache.Proofs.Retention
import RingCache.Proofs.Batches
import RingCache.Proofs.Budgets
import RingCache.Proofs.Forwards
import RingCache.Proofs.Hops
import RingCache.Proofs.Staleness
import RingCache.Proofs.Letters
import RingCache.Proofs.Ledger
import RingCache.Proofs.Ways
import RingCache.Proofs.Relays
import RingCache.Proofs.Laps
import RingCache.Proofs.RelaySteps
import RingCache.Proofs.Circles
import RingCache.Proofs.Promptness
import RingCache.Proofs.Punctuality
import RingCache.Proofs.Deliveries
import RingCache.Proofs.TextOrder
import RingCache.Proofs.Assignment
import RingCache.Proofs.Reconciling
import RingCache.Proofs.Truncation
import RingCache.Proofs.Overlength
import RingCache.Proofs.Replies
import RingCache.Proofs.Rounds
import RingCache.Proofs.Acts
import RingCache.Proofs.Households
import RingCache.Proofs.Occupancy
import RingCache.Proofs.Registrations
import RingCache.Proofs.Receipts
