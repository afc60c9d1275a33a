import Shrt.Lib.Framing
import Shrt.Lib.LastWrite
import Shrt.Lib.Transition
import Shrt.Lib.UnorderedMap
import Shrt.Lib.CounterLog
import Shrt.Lib.WriteBehind
import Shrt.Lib.HttpMessage
import Shrt.Lib.Replication
import Shrt.Lib.Turns
import Shrt.Lib.Incremental
import Shrt.Codec.RoundTrip
import Shrt.Store.Ops
import Shrt.Store.Links
import Shrt.Store.Own
import Shrt.Store.Tidy
import Shrt.Store.Solo
import Shrt.Store.Touches
import Shrt.Store.Cells
import Shrt.Machine.Basic
import Shrt.Machine.Shape
import Shrt.Machine.Durable
import Shrt.Machine.Sequential
import Shrt.Machine.Restart
import Shrt.Machine.Conservation
import Shrt.Machine.Counters
import Shrt.Machine.Compaction
import Shrt.Machine.Successor
import Shrt.Cluster.Claim
import Shrt.Store.Listing
import Shrt.App.Json
import Shrt.App.Handle
import Shrt.App.Links
import Shrt.App.Server
import Shrt.App.Response
import Shrt.App.Cap
import Shrt.Store.Follow
import Shrt.Store.Writes
import Shrt.Cluster.Basic
import Shrt.Cluster.Simulation
import Shrt.Cluster.Steps
import Shrt.Cluster.Followers
import Shrt.Cluster.Compaction
import Shrt.App.Alias
import Shrt.App.Conn
import Shrt.App.Kqueue
import Shrt.Kv.Resp
import Shrt.Lib.Buffered
import Shrt.Kv.Pipe
import Shrt.Lib.Interleave
import Shrt.Lib.Fifo
import Shrt.Backend.Row
import Shrt.Backend.Node
import Shrt.Kv.Redis
import Shrt.Kv.Node
import Shrt.Lib.Lockstep
import Shrt.Kv.Exec
import Shrt.Kv.Layouts
import Shrt.Rocks.Node
import Shrt.Rocks.Memory
import Shrt.Rocks.Alias
import Shrt.Lib.Linear
import Shrt.Kv.Mutations
import Shrt.Store.Flush
import Shrt.Store.Truncation
import Shrt.Lib.TokenBucket
import Shrt.App.RateLimit
import Shrt.App.Crowd
import Shrt.App.Eviction
import Shrt.Lib.Ledger
import Shrt.Backend.Hits
import Shrt.Kv.Hits
import Shrt.Rocks.Hits
import Shrt.Backend.Counters
import Shrt.Kv.Requests
import Shrt.Kv.Staleness
import Shrt.Kv.Deadlines
import Shrt.Kv.Sweep
import Shrt.Lib.Ensures
import Shrt.Rocks.Transparent
import Shrt.Backend.Stale
import Shrt.Backend.Reads
import Shrt.Store.OrderFree
import Shrt.Lib.Paging
import Shrt.App.Bulk
import Shrt.Rocks.Reports
import Shrt.Rocks.Bulk
import Shrt.Kv.Bulk
import Shrt.App.Bounds
import Shrt.Kv.Listing
import Shrt.Cluster.Misses
import Shrt.Cluster.Convergence
import Shrt.Store.Torn
import Shrt.Backend.Codec
import Shrt.Backend.Cache
import Shrt.Lib.MergeTree
import Shrt.Rocks.Merge
import Shrt.App.Query
import Shrt.App.Headers
import Shrt.App.Numeral
import Shrt.App.JsonText
import Shrt.App.JsonString
import Shrt.Store.Intake
import Shrt.Cluster.Hits
import Shrt.Lib.Xorshift
import Shrt.Store.Rng
import Shrt.Store.Tail
import Shrt.Lib.Cursor
import Shrt.Codec.Positions
import Shrt.Codec.Reorder
import Shrt.Lib.SlotRing
import Shrt.App.Metrics
import Shrt.Cluster.Generated
import Shrt.Lib.Survey
import Shrt.Machine.Listing
import Shrt.App.Pipeline
