import Fram.Types
import Fram.Lib.ExtractLast
import Fram.Lib.History
import Fram.Lib.BinarySearch
import Fram.Slots
import Fram.Lemmas.Interning
import Fram.Lemmas.Folding
import Fram.Lemmas.Represents
import Fram.Lemmas.Observe
import Fram.Lib.LittleEndian
import Fram.Lib.Reader
import Fram.Utf8
import Fram.Wire
import Fram.Lemmas.Wire
import Fram.Lib.Crc
import Fram.Log
import Fram.Lemmas.Log
import Fram.Lemmas.Replay
import Fram.Lemmas.Boot
import Fram.Lib.Chained
import Fram.Rotation
import Fram.Dump
import Fram.Snapshot
import Fram.Session
import Fram.Rpc
import Fram.Dispatch
import Fram.Server
import Fram.Lemmas.Rotation
import Fram.Lemmas.Committed
import Fram.Lemmas.Server
import Fram.Lemmas.Damage
import Fram.Theorems.Damage
import Fram.Lemmas.Twin
import Fram.Lemmas.Snapshot
import Fram.Lemmas.Measure
import Fram.Lemmas.EventAt
import Fram.Theorems.HistoricalViews
import Fram.Frames
import Fram.QueryOps
import Fram.Lemmas.Frames
import Fram.Lemmas.Historical
import Fram.Forks
import Fram.Lemmas.Forks
import Fram.Lemmas.Forest
import Fram.Lemmas.ResultCache
import Fram.Lemmas.Rpc
import Fram.Lemmas.Scan
import Fram.Lemmas.Paging
import Fram.Theorems.ScanPaging
import Fram.Numbers
import Fram.Datalog
import Fram.Candidates
import Fram.Fixpoint
import Fram.Query
import Fram.Lemmas.Datalog
import Fram.Lemmas.Join
import Fram.Lemmas.RowOrder
import Fram.Lemmas.Sources
import Fram.Lemmas.Facts
import Fram.Lemmas.Tracks
import Fram.Lemmas.Rounds
import Fram.Lemmas.Stratum
import Fram.Branch
import Fram.Theorems.LeasesAgree
import Fram.Lemmas.Branch
import Fram.Theorems.RefSpelling
import Fram.Lemmas.WholeImage
import Fram.Theorems.SnapshotRoundTrip
import Fram.Theorems.ReadersAgree
import Fram.Framrpc
import Fram.Lemmas.Framrpc
import Fram.Lib.Records
import Fram.Database
import Fram.Lemmas.Database
import Fram.Lemmas.CrashRun
import Fram.WholeLog
import Fram.Lemmas.WholeLog
import Fram.CommitRequest
import Fram.Lemmas.CommitRequest
import Fram.Theorems.CommitAtomicity
import Fram.Lib.Script
import Fram.Mutation
import Fram.Lemmas.Mutation
import Fram.Theorems.GroupCommit
import Fram.BranchStore
import Fram.Lemmas.Chain
import Fram.Lemmas.Reconcile
import Fram.Theorems.Reconcile
import Fram.Lemmas.ForkPaths
import Fram.Lemmas.Forking
import Fram.Lemmas.BranchRun
import Fram.Lemmas.ForkPlan
import Fram.Lemmas.ForkRun
import Fram.Lemmas.ForkWhole
import Fram.Theorems.BranchHistories
import Fram.Theorems.ForkAnswers
import Fram.Lib.Span
import Fram.GuestArena
import Fram.Lemmas.GuestArena
import Fram.Theorems.GuestArena
import Fram.Lib.KeyValue
import Fram.Lib.Chunks
import Fram.ChunkStore
import Fram.Lemmas.ChunkStore
import Fram.Theorems.ChunkStore
import Fram.Lemmas.Request
import Fram.Javascript
import Fram.Lib.Hex
import Fram.ClientCodec
import Fram.Lemmas.ClientCodec
import Fram.Inspect
import Fram.Theorems.Inspect
import Fram.Theorems.ClientCodec
import Fram.Lemmas.KnownTerms
import Fram.Theorems.HashConsing
import Fram.Lemmas.Rounding
import Fram.Ordering
import Fram.Lib.Sorting
import Fram.Lemmas.Ordering
import Fram.Theorems.QueryOrdering
import Fram.Aggregates
import Fram.Lib.Grouping
import Fram.Lemmas.Aggregates
import Fram.Theorems.Aggregates
import Fram.Lemmas.Postings
import Fram.Theorems.Narrowing
import Fram.Schema
import Fram.Lemmas.Schema
import Fram.Lemmas.SingleUpdate
import Fram.Theorems.SingleUpdate
import Fram.BranchRevision
import Fram.Lib.Writers
import Fram.Theorems.BranchRevision
import Fram.Kernel
import Fram.Theorems.ProfileGating
import Fram.Theorems.LeaseExpiry
import Fram.ChildOrder
import Fram.Lemmas.ChildOrder
import Fram.Theorems.ChildOrder
import Fram.Preflight
import Fram.Lemmas.Preflight
import Fram.Theorems.Preflight
import Fram.JvmServer
import Fram.Lemmas.JvmServer
import Fram.Theorems.VersionFirst
import Fram.Lemmas.Naming
import Fram.Theorems.Naming
import Fram.QueryPages
import Fram.Lemmas.QueryPages
import Fram.Theorems.QueryPages
import Fram.Lemmas.Placement
import Fram.Theorems.Placement
import Fram.Lemmas.ProgramInspection
import Fram.Theorems.Ownership
import Fram.Lib.Fueled
import Fram.Pull
import Fram.Lemmas.Pull
import Fram.Theorems.PullAsOf
import Fram.Lemmas.PullHistory
import Fram.Checksum
import Fram.Theorems.Checksum
import Fram.Theorems.Utf8Reading
import Fram.Theorems.CacheBooks
import Fram.Theorems.TokenBudget
import Fram.Theorems.ChainBoot
import Fram.Lemmas.Requests
import Fram.Theorems.MutationReceipts
import Fram.QueryRoute
import Fram.Lemmas.QuerySources
import Fram.Lib.InvertedIndex
import Fram.TextSearch
import Fram.Lemmas.TextSearch
import Fram.Theorems.TextSearch
import Fram.Lemmas.QueryView
import Fram.Lemmas.QueryRuns
import Fram.Theorems.QueryModel
