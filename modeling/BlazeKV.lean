import BlazeKV.Lib.Actors
import BlazeKV.Lib.Binary64
import BlazeKV.Lib.BitMask
import BlazeKV.Lib.LittleEndian
import BlazeKV.Lib.Spans
import BlazeKV.Lib.ByteMemory
import BlazeKV.Lib.Dense
import BlazeKV.Lib.Faults
import BlazeKV.Lib.Linked
import BlazeKV.Lib.Machine
import BlazeKV.Lib.Mailbox
import BlazeKV.Lib.Maxima
import BlazeKV.Lib.Overtaking
import BlazeKV.Lib.Ranks
import BlazeKV.Lib.Readers
import BlazeKV.Lib.Sampling
import BlazeKV.Lib.Slices
import BlazeKV.Lib.Stdio
import BlazeKV.Lib.Wildcards
import BlazeKV.Spec.SwissTable
import BlazeKV.Proofs.SwissProbe
import BlazeKV.Proofs.SwissWrite
import BlazeKV.Proofs.SwissOps
import BlazeKV.Spec.Bytes
import BlazeKV.Spec.Hash
import BlazeKV.Spec.Dict
import BlazeKV.Spec.Number
import BlazeKV.Spec.SkipList
import BlazeKV.Spec.Object
import BlazeKV.Spec.Keyspace
import BlazeKV.Spec.Resp
import BlazeKV.Spec.Command
import BlazeKV.Spec.Commands.Strings
import BlazeKV.Spec.Commands.Generic
import BlazeKV.Spec.Commands.Hashes
import BlazeKV.Spec.Commands.Lists
import BlazeKV.Spec.Commands.Sets
import BlazeKV.Spec.Commands.ZSets
import BlazeKV.Spec.Commands.Server
import BlazeKV.Spec.Registry
import BlazeKV.Spec.Aof
import BlazeKV.Spec.Shard
import BlazeKV.Proofs.Pipeline
import BlazeKV.Spec.Server
import BlazeKV.Proofs.Delivery
import BlazeKV.Proofs.InFlight
import BlazeKV.Spec.AofFile
import BlazeKV.Spec.History
import BlazeKV.Spec.Vectors
import BlazeKV.Spec.Serving
import BlazeKV.Proofs.Turns
import BlazeKV.Proofs.FlushRace
import BlazeKV.Proofs.AlwaysLog
import BlazeKV.Proofs.AofErrors
import BlazeKV.Proofs.Decimal
import BlazeKV.Proofs.RespParse
import BlazeKV.Proofs.RespTorn
import BlazeKV.Proofs.AofReplay
import BlazeKV.Spec.Arena
import BlazeKV.Proofs.BumpArena
import BlazeKV.Proofs.KeyspaceOps
import BlazeKV.Spec.Checked.Base
import BlazeKV.Spec.Checked.Strings
import BlazeKV.Proofs.CheckedStrings
import BlazeKV.Spec.Checked.Generic
import BlazeKV.Proofs.GlobMatch
import BlazeKV.Spec.Checked.Lists
import BlazeKV.Spec.Checked.Server
import BlazeKV.Proofs.CheckedCommands
import BlazeKV.Proofs.SkipRep
import BlazeKV.Proofs.SkipRows
import BlazeKV.Proofs.SkipInsert
import BlazeKV.Proofs.SkipErase
import BlazeKV.Spec.Checked.SkipList
import BlazeKV.Proofs.SkipSafety
import BlazeKV.Proofs.SkipRun
import BlazeKV.Proofs.ZSetAgree
import BlazeKV.Spec.Checked.ZSets
import BlazeKV.Proofs.CheckedZSets
import BlazeKV.Proofs.LiveView
import BlazeKV.Proofs.ReadCommands
import BlazeKV.Proofs.WriteCommands
import BlazeKV.Proofs.ZAddEffects
import BlazeKV.Proofs.CommandTable
import BlazeKV.Proofs.CommandEffects
import BlazeKV.Proofs.Deadlines
import BlazeKV.Spec.Feed
import BlazeKV.Proofs.Reads
import BlazeKV.Proofs.EndOfFile
import BlazeKV.Proofs.Replies
import BlazeKV.Proofs.SetOptions
import BlazeKV.Proofs.ExactDeadlines
import BlazeKV.Proofs.Executions
import BlazeKV.Proofs.TwoRuns
import BlazeKV.Proofs.Representation
import BlazeKV.Proofs.Expiry
import BlazeKV.Proofs.ExpireCycle
import BlazeKV.Proofs.WellFormed
import BlazeKV.Proofs.Framing
import BlazeKV.Proofs.ReadFrame
import BlazeKV.Proofs.FanOut
import BlazeKV.Spec.Snapshot
import BlazeKV.Proofs.SnapshotTrip
import BlazeKV.Spec.Recovery
import BlazeKV.Proofs.Placement
import BlazeKV.Proofs.Timeless
import BlazeKV.Proofs.Recovered
import BlazeKV.Proofs.FlushedFiles
import BlazeKV.Spec.Glob
import BlazeKV.Proofs.GlobReference
import BlazeKV.Spec.Checked.Parser
import BlazeKV.Proofs.ParserBounds
import BlazeKV.Spec.Checked.Hash
import BlazeKV.Proofs.HashLoads
import BlazeKV.Spec.Checked.Hnsw
import BlazeKV.Proofs.HnswSafety
import BlazeKV.Proofs.HnswResults
import BlazeKV.Proofs.HnswLinks
import BlazeKV.Proofs.HnswOrder
import BlazeKV.Proofs.HnswRuns
import BlazeKV.Proofs.InOrder
import BlazeKV.Proofs.OwnedDeadlines
import BlazeKV.Proofs.LinkedSets
import BlazeKV.Spec.Checked.Registry
import BlazeKV.Proofs.NoFaults
import BlazeKV.Proofs.HnswWellFormed
import BlazeKV.Proofs.HnswPresence
import BlazeKV.Proofs.HyperLogLog
import BlazeKV.Proofs.Increments
import BlazeKV.Proofs.TwoClocks
import BlazeKV.Proofs.LateReplay
import BlazeKV.Spec.Metrics
import BlazeKV.Proofs.Latency
import BlazeKV.Proofs.LatencyLines
import BlazeKV.Proofs.Listing
import BlazeKV.Proofs.LogRoundTrip
import BlazeKV.Spec.MpscQueue
import BlazeKV.Proofs.MpscFifo
import BlazeKV.Proofs.MultikeyIndexes
import BlazeKV.Proofs.NoEmptyContainers
import BlazeKV.Proofs.StringStore
import BlazeKV.Proofs.OneClient
import BlazeKV.Spec.Reactor
import BlazeKV.Proofs.Reactor
import BlazeKV.Spec.ReplyReader
import BlazeKV.Proofs.ReplyReader
import BlazeKV.Proofs.RespGrammar
import BlazeKV.Proofs.SetCommand
import BlazeKV.Proofs.ShardCounts
import BlazeKV.Proofs.SlabBlocks
import BlazeKV.Proofs.SnapshotCut
import BlazeKV.Spec.SnapshotFile
import BlazeKV.Proofs.SnapshotFile
import BlazeKV.Proofs.SnapshotLimits
import BlazeKV.Proofs.SwissMap
import BlazeKV.Spec.SwissBackends
import BlazeKV.Proofs.SwissBackends
import BlazeKV.Proofs.SwissBounds
import BlazeKV.Proofs.SyncedReplies
import BlazeKV.Proofs.WrongKind
import BlazeKV.Proofs.ZAddScores
import BlazeKV.Spec.Checked.Ranges
import BlazeKV.Proofs.ZRange
import BlazeKV.Proofs.ZScoreRange
import BlazeKV.Proofs.ZSetRun
import BlazeKV.Lib.Rounds
import BlazeKV.Proofs.Quiescence
import BlazeKV.Spec.Wire
import BlazeKV.Proofs.Wire
import BlazeKV.Proofs.Serial
import BlazeKV.Lib.Doorbell
import BlazeKV.Spec.Waker
import BlazeKV.Proofs.Wakeups
import BlazeKV.Spec.Sockets
import BlazeKV.Proofs.Sockets
import BlazeKV.Proofs.HnswReach
import BlazeKV.Proofs.HnswExact
import BlazeKV.Proofs.EverySec
import BlazeKV.Lib.Rounding
import BlazeKV.Proofs.SeventeenDigits
import BlazeKV.Proofs.DoubleText
import BlazeKV.Proofs.FloatCounters
import BlazeKV.Spec.AbstractStore
import BlazeKV.Proofs.Cells
import BlazeKV.Proofs.Containers
import BlazeKV.Proofs.PlainValues
import BlazeKV.Proofs.Abstraction
import BlazeKV.Proofs.SortedSets
import BlazeKV.Proofs.ServedStore
