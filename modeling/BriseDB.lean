import BriseDB.Base.Bytes
import BriseDB.Base.Chain
import BriseDB.Base.Delivers
import BriseDB.Base.Ends
import BriseDB.Base.Exec
import BriseDB.Base.File
import BriseDB.Base.Json
import BriseDB.Base.JsonReader
import BriseDB.Base.KeyLog
import BriseDB.Base.Locking
import BriseDB.Base.Matches
import BriseDB.Base.Parser
import BriseDB.Base.Pointers
import BriseDB.Base.Sections
import BriseDB.Base.Smear
import BriseDB.Base.Table
import BriseDB.Base.TableLoops
import BriseDB.Client.ReplicaConn
import BriseDB.Client.Threads
import BriseDB.Index.Compaction
import BriseDB.Index.Core
import BriseDB.Index.Damaged
import BriseDB.Index.Entry
import BriseDB.Index.Failures
import BriseDB.Index.Framing
import BriseDB.Index.Iterate
import BriseDB.Index.Layout
import BriseDB.Index.Leftover
import BriseDB.Index.Lockfree
import BriseDB.Index.LongKeys
import BriseDB.Index.Misaligned
import BriseDB.Index.Refinement
import BriseDB.Index.Stopped
import BriseDB.Index.Torn
import BriseDB.Index.Traversal
import BriseDB.Index.Update
import BriseDB.Index.Visits
import BriseDB.Index.Walk
import BriseDB.Server.Blobs
import BriseDB.Server.Commands
import BriseDB.Server.Expiring
import BriseDB.Server.PubSub
import BriseDB.Server.Ranges
import BriseDB.Server.Scanning
import BriseDB.Store.Background
import BriseDB.Store.Calls
import BriseDB.Store.Commit
import BriseDB.Store.Counting
import BriseDB.Store.DB
import BriseDB.Store.Durations
import BriseDB.Store.Effects
import BriseDB.Store.EntryCount
import BriseDB.Store.Expiry
import BriseDB.Store.Fanout
import BriseDB.Store.Faulty
import BriseDB.Store.Isolation
import BriseDB.Store.KeyedMutex
import BriseDB.Store.LastWrite
import BriseDB.Store.Listing
import BriseDB.Store.Liveness
import BriseDB.Store.LogText
import BriseDB.Store.LongKeys
import BriseDB.Store.Misaligned
import BriseDB.Store.Models
import BriseDB.Store.Nested
import BriseDB.Store.Placement
import BriseDB.Store.Rebuild
import BriseDB.Store.Recovery
import BriseDB.Store.RedoLog
import BriseDB.Store.ReplayExpiry
import BriseDB.Store.Replication
import BriseDB.Store.Restart
import BriseDB.Store.Run
import BriseDB.Store.Session
import BriseDB.Store.Stream
import BriseDB.Store.StreamText
import BriseDB.Store.Sweep
import BriseDB.Store.Visibility
import BriseDB.Store.Wal
import BriseDB.Store.WalCodec
import BriseDB.Store.WalErrors
import BriseDB.Types
import BriseDB.Volume.Allocation
import BriseDB.Volume.Appends
import BriseDB.Volume.Blobs
import BriseDB.Volume.Caching
import BriseDB.Volume.Core
import BriseDB.Volume.Group
import BriseDB.Volume.Groups
import BriseDB.Volume.Lru
import BriseDB.Volume.Manager
import BriseDB.Volume.Open
import BriseDB.Volume.Placement
import BriseDB.Volume.Pool
import BriseDB.Volume.PoolRun
import BriseDB.Volume.Recency
import BriseDB.Volume.Replicas
import BriseDB.Volume.Storage
import BriseDB.Volume.Streams
