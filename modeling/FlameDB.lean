import FlameDB.Go.Bytes
import FlameDB.Go.Run
import FlameDB.Go.Float64
import FlameDB.Go.Utf8
import FlameDB.Go.Strings
import FlameDB.Go.Scanner
import FlameDB.Go.Strconv
import FlameDB.Go.Time
import FlameDB.Go.Rfc3339
import FlameDB.Go.Base64
import FlameDB.Go.Heap
import FlameDB.Go.Search
import FlameDB.Go.FloatSum
import FlameDB.KV.OrdMap
import FlameDB.KV.Seek
import FlameDB.KV.Table
import FlameDB.KV.Buckets
import FlameDB.Parsing.ArgLoop
import FlameDB.Keyspace
import FlameDB.Machine
import FlameDB.Jvm
import FlameDB.Storage.Cardinality
import FlameDB.Storage.Event
import FlameDB.Storage.Storage
import FlameDB.Storage.Index
import FlameDB.Storage.Windowed
import FlameDB.Storage.EventBytes
import FlameDB.Storage.EventEncoding
import FlameDB.Aggregates.Leaderboard
import FlameDB.Aggregates.Scores
import FlameDB.Aggregates.Ranking
import FlameDB.Storage.HeapPage
import FlameDB.Aggregates.BatchLookup
import FlameDB.Query.Tokenize
import FlameDB.Query.Query
import FlameDB.Query.Result
import FlameDB.Query.Parser
import FlameDB.Query.Cursor
import FlameDB.Query.Duration
import FlameDB.Query.TimeLiteral
import FlameDB.Query.Arguments
import FlameDB.Query.CursorSafety
import FlameDB.Query.Lines
import FlameDB.Query.Settings
import FlameDB.Query.Grammar
import FlameDB.Query.Ranking
import FlameDB.Query.Executor
import FlameDB.Query.Reading
import FlameDB.Query.Series
import FlameDB.Query.Mutation
import FlameDB.Query.Scan
import FlameDB.Query.Clauses
import FlameDB.Query.PebbleBatch
import FlameDB.Query.BatchInvariant
import FlameDB.Query.BatchRefinement
import FlameDB.Query.Reachable
import FlameDB.Query.Provenance
import FlameDB.Query.Isolation
import FlameDB.Query.ReadFrame
import FlameDB.Query.Discovery
import FlameDB.Query.TimeRange
import FlameDB.Query.Deletion
import FlameDB.Query.WindowedPaths
import FlameDB.Query.LeaderboardMap
import FlameDB.Query.Replay
import FlameDB.Query.BatchAccounting
import FlameDB.Cluster.Outbox
import FlameDB.Cluster.Replication
import FlameDB.Cluster.KeyFamilies
import FlameDB.Cluster.ConnPool
import FlameDB.Cluster.ConnPoolSafety
import FlameDB.Cluster.Ring
import FlameDB.Cluster.OutboxOrder
import FlameDB.Server.ReplicaLine
import FlameDB.Server.WriteBatch
import FlameDB.Server.Replicated
import FlameDB.Analytics.Encoding
import FlameDB.Analytics.Boards
import FlameDB.Analytics.CacheAgreement
import FlameDB.Analytics.ThreeOrders
import FlameDB.Analytics.Batch
import FlameDB.Analytics.Tables
import FlameDB.Analytics.Import
import FlameDB.Analytics.Series
import FlameDB.Analytics.Timestamps
import FlameDB.Analytics.SharedReads
import FlameDB.Server.Shared
import FlameDB.Server.Accounting
import FlameDB.Server.Request
import FlameDB.Server.Session
import FlameDB.Server.Frames
import FlameDB.Server.OneReply
import FlameDB.Client.CommandPool
import FlameDB.Client.NotSent
import FlameDB.Client.ResponseReader
import FlameDB.Client.JournalFormat
import FlameDB.Client.JournalText
import FlameDB.Client.Journal
import FlameDB.Client.JournalSafety
import FlameDB.Client.JournalFiles
