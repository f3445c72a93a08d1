import Traitor.AbortedBlocks
import Traitor.ActiveExpiry
import Traitor.Alike
import Traitor.AlikeReads
import Traitor.AlikeWrites
import Traitor.Basic
import Traitor.BitRanges
import Traitor.Bitmaps
import Traitor.Blocks
import Traitor.Client
import Traitor.Cluster
import Traitor.Codec
import Traitor.CollectionEdits
import Traitor.Collections
import Traitor.ConsistentHash
import Traitor.Convergence
import Traitor.Counters
import Traitor.CrashRecovery
import Traitor.Database
import Traitor.DeclaredWrites
import Traitor.DelayedScans
import Traitor.DictRefinement
import Traitor.Dicts
import Traitor.EarlyJobs
import Traitor.Edits
import Traitor.ExactTimes
import Traitor.Expirations
import Traitor.ExpiryWheel
import Traitor.FailedCommands
import Traitor.Faithfulness
import Traitor.ForgottenJobs
import Traitor.Framing
import Traitor.HashCommands
import Traitor.HashReads
import Traitor.HashRing
import Traitor.IndexRanges
import Traitor.InstantExpiry
import Traitor.JobClient
import Traitor.JobRecovery
import Traitor.JobWheel
import Traitor.Journal
import Traitor.KeyCommands
import Traitor.KeyPatterns
import Traitor.KeySampling
import Traitor.LazyExpiry
import Traitor.Lib.Cells
import Traitor.Lib.Crc32
import Traitor.Lib.Deadlines
import Traitor.Lib.Effects
import Traitor.Lib.FiniteMaps
import Traitor.Lib.LateAnswers
import Traitor.Lib.LateScans
import Traitor.Lib.Links
import Traitor.Lib.LockOrder
import Traitor.Lib.LoneClient
import Traitor.Lib.Positions
import Traitor.Lib.PowersOfTwo
import Traitor.Lib.Printf
import Traitor.Lib.Regexp
import Traitor.Lib.Runs
import Traitor.Lib.Shards
import Traitor.Lib.SkipChain
import Traitor.Lib.Strconv
import Traitor.Lib.Successor
import Traitor.Lib.TimeLayout
import Traitor.Lib.TwoPhase
import Traitor.Lib.Windows
import Traitor.LinkedList
import Traitor.LinkedListRefinement
import Traitor.ListCommands
import Traitor.ListRemoval
import Traitor.ListSizes
import Traitor.ListUndo
import Traitor.LocalDb
import Traitor.LocalDbJobs
import Traitor.LocalDbReads
import Traitor.LocalDbRuns
import Traitor.LocalDbServer
import Traitor.LocalDbWrites
import Traitor.Locality
import Traitor.LockManager
import Traitor.LogWriter
import Traitor.LostCollections
import Traitor.LostElements
import Traitor.LostExpirations
import Traitor.LostScores
import Traitor.LostStores
import Traitor.MultiNode
import Traitor.NoEmptyCollections
import Traitor.NodeList
import Traitor.Notifications
import Traitor.OptionGrammars
import Traitor.PagedLists
import Traitor.Parser
import Traitor.Protocol
import Traitor.QuickList
import Traitor.QuickListRefinement
import Traitor.ReadCommands
import Traitor.Reads
import Traitor.Reclaiming
import Traitor.Recovery
import Traitor.Renames
import Traitor.Replay
import Traitor.ReplayCommands
import Traitor.Restart
import Traitor.Resync
import Traitor.Rewrite
import Traitor.Router
import Traitor.RunnableJobs
import Traitor.SamplingCommands
import Traitor.Schedule
import Traitor.SequenceRefinement
import Traitor.Sequences
import Traitor.Serializability
import Traitor.Service
import Traitor.SetAlgebra
import Traitor.SetCommands
import Traitor.SetRanges
import Traitor.SetUndo
import Traitor.ShardSelection
import Traitor.SharedReplies
import Traitor.SharedStrings
import Traitor.SkipList
import Traitor.SkipListShape
import Traitor.SortedSetCommands
import Traitor.SortedSetInvariant
import Traitor.SortedSetMap
import Traitor.SortedSetRanges
import Traitor.SortedSetRanks
import Traitor.SortedSetReads
import Traitor.SortedSetRefinement
import Traitor.SortedSetRemovals
import Traitor.SortedSetReplies
import Traitor.SortedSetRuns
import Traitor.SortedSetSizes
import Traitor.Standalone
import Traitor.StandaloneCancel
import Traitor.StandaloneWheel
import Traitor.StoredList
import Traitor.StringCommands
import Traitor.Survival
import Traitor.TimeSettings
import Traitor.TimeWheel
import Traitor.TornLog
import Traitor.Transaction
import Traitor.Transport
import Traitor.Undo
import Traitor.UndoLines
import Traitor.UndoneCommands
import Traitor.UnlockedReplies
import Traitor.Watching
import Traitor.WheelIntervals
import Traitor.Wildcards
import Traitor.WriteCommands
import Traitor.WriteSets
